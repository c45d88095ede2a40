import SimpleBinary.Proofs.Forest.Basic
import SimpleBinary.Proofs.Walk.Turn

/-!
The walk over a forest.

A walker goes over a list of tokens and passes over a construct by its count. Where every count leads to
the end of its construct, this is a recursion over the forest, in which no count occurs (`Walk.node`).
The two are compared by one induction over the forest (`refines_nodes`), with room for faults of the
counts: a count may be refused, but where it is not, it leads to the end of the construct
(`Node.Sound`). Counts that are left to the reader of the list are always sound.
-/

set_option autoImplicit false

namespace SimpleBinary

open Node (openToken closeToken tokensAll sizeAll)

namespace Walk

mutual

/-- The walk over a node. -/
def node : Node → Walk Unit
  | .leaf atom entry =>
    match atom with
    | .encoding => do
      let token := (entry.withSignal Atom.encoding.signal).token
      let gap ← openField token token
      place token token gap (.primitive token token)
    | _ => pure ()
  | .span construct opening parts closing =>
    let token := openToken construct opening parts
    let inside := tokensAll parts ++ [closeToken construct closing]
    match construct with
    | .message => do
      push .encodeValidation
      nodes parts
      close
      push .decodeValidation
    | .field => do
      let type := inside.head (by simp [inside])
      let gap ← openField token type
      place token type gap (← fieldStep token type)
    | .enumeration | .choiceSet => do
      let gap ← openField token token
      place token token gap (← fieldStep token token)
    | .composite => do
      let gap ← openField token token
      let nested ← inner .composite false token (nodes parts)
      place token token gap (.typed .composite (.text nested.typeName) token token (some nested))
    | .group => do
      close
      let (blockLength, numInGroup) ← leading (.groupDimensions token.name) inside
      let element ← inner .group true token do
        behind parts
        close
      push (.group token blockLength numInGroup element)
    | .varData => do
      close
      let (length, data) ← leading (.varDataLength token.name) inside
      push (.varData token length data)

/-- The walk over a forest, one node after the other. -/
def nodes : List Node → Walk Unit
  | [] => pure ()
  | n :: rest => do
    node n
    nodes rest

/-- The walk over the nodes behind the first one. -/
def behind : List Node → Walk Unit
  | [] => pure ()
  | _ :: rest => nodes rest

end

/-! ## Refinement -/

/-- The first walk does what the second does, or fails with one of some faults. -/
def Refines {α : Type} (faults : Fault → Prop) (x y : Walk α) : Prop :=
  ∀ w, x w = y w ∨ ∃ fault u, x w = .error fault u ∧ faults fault

namespace Refines

variable {α β : Type} {faults : Fault → Prop} {x y : Walk α}

theorem refl (x : Walk α) : Refines faults x x :=
  fun _ => .inl rfl

theorem trans {z : Walk α} (hxy : Refines faults x y) (hyz : Refines faults y z) :
    Refines faults x z := by
  intro w
  rcases hxy w with heq | hfault
  · rw [heq]
    exact hyz w
  · exact .inr hfault

/-- One part after another. -/
theorem bind {f g : α → Walk β} (h : Refines faults x y) (hf : ∀ a, Refines faults (f a) (g a)) :
    Refines faults (x >>= f) (y >>= g) := by
  intro w
  show EStateM.bind x f w = EStateM.bind y g w ∨ ∃ fault u, EStateM.bind x f w = _ ∧ _
  simp only [EStateM.bind]
  rcases h w with heq | ⟨fault, u, herror, hfault⟩
  · rw [heq]
    cases y w with
    | ok a v => exact hf a v
    | error fault v => exact .inl rfl
  · rw [herror]
    exact .inr ⟨fault, u, rfl, hfault⟩

theorem bind_left {f g : α → Walk β} (x : Walk α) (hf : ∀ a, Refines faults (f a) (g a)) :
    Refines faults (x >>= f) (x >>= g) :=
  (refl x).bind hf

/-- A part that fails with one of the faults, or gives a value with which the rest refines. -/
theorem of_outcome {outcome : Except Fault β} {f : β → Walk α}
    (h : (∃ fault, outcome = .error fault ∧ faults fault) ∨
      ∃ b, outcome = .ok b ∧ Refines faults (f b) y) :
    Refines faults (ofExcept outcome >>= f) y := by
  rcases h with ⟨fault, rfl, hfault⟩ | ⟨b, rfl, h⟩
  · exact fun w => .inr ⟨fault, w, rfl, hfault⟩
  · exact h

/-- Plans that are walked from the start. -/
theorem fresh {walk other : Walk Unit} (plan : Plan) (h : Refines faults walk other) :
    Walk.fresh plan walk = Walk.fresh plan other ∨
      ∃ fault, Walk.fresh plan walk = .error fault ∧ faults fault := by
  have hfinish : Refines faults (walk >>= fun _ => finish) (other >>= fun _ => finish) :=
    h.bind fun _ => refl finish
  unfold Walk.fresh EStateM.run
  rcases hfinish { plan } with heq | ⟨fault, u, herror, hfault⟩
  · exact .inl (by rw [heq])
  · exact .inr ⟨fault, by rw [herror], hfault⟩

/-- The plans of parts. -/
theorem inner {walk other : Walk Unit} (kind : EntityKind) (isExtensible : Bool) (token : Token)
    (h : Refines faults walk other) :
    Refines faults (Walk.inner kind isExtensible token walk)
      (Walk.inner kind isExtensible token other) := by
  refine bind_left get fun w => ?_
  intro v
  rcases h.fresh (w.part kind isExtensible token) with heq | ⟨fault, herror, hfault⟩
  · exact .inl (congrArg (ofExcept · v) heq)
  · exact .inr ⟨fault, v, congrArg (ofExcept · v) herror, hfault⟩

end Refines

end Walk

/-! ## Counts -/

namespace Node

/-- Whether a node is a composite. -/
def isComposite : Node → Bool
  | .span .composite .. => true
  | _ => false

/-- The count of a node is refused with one of the faults, or leads to the end of the node. -/
def Passes (faults : Fault → Prop) (n : Node) (after : List Token) : Prop :=
  (∃ fault, spanLength (n.tokens ++ after) = .error fault ∧ faults fault) ∨
    ∃ span, spanLength (n.tokens ++ after) = .ok span ∧ span.1 = n.size

mutual

/-- Whether the counts that a walk uses are sound, at a node with tokens after it. -/
def Sound (faults : Fault → Prop) : Node → List Token → Prop
  | .leaf _ _, _ => True
  | .span .message _ parts closing, after =>
    SoundAll faults parts (closeToken .message closing :: after)
  | .span .composite opening parts closing, after =>
    Passes faults (.span .composite opening parts closing) after ∧ SoundAll faults parts []
  | .span .group opening parts closing, after =>
    Passes faults (.span .group opening parts closing) after ∧
      SoundGroup faults parts (closeToken .group closing) after
  | .span construct opening parts closing, after =>
    Passes faults (.span construct opening parts closing) after

/-- Whether the counts that a walk uses are sound, in a forest with tokens after it. -/
def SoundAll (faults : Fault → Prop) : List Node → List Token → Prop
  | [], _ => True
  | n :: rest, after => Sound faults n (tokensAll rest ++ after) ∧ SoundAll faults rest after

/-- Whether the counts that a walk uses are sound, in the parts of a group with the token that closes it
and tokens after that. -/
def SoundGroup (faults : Fault → Prop) : List Node → Token → List Token → Prop
  | [], _, _ => True
  | dimensions :: members, closing, after =>
    (dimensions.isComposite = true →
      Passes faults dimensions (tokensAll members ++ closing :: after)) ∧
      SoundAll faults members [closing]

end

end Node

/-! ## The walk refines the walk over the forest -/

namespace Walk

variable {faults : Fault → Prop}

/-- A construct is passed over as a whole. -/
theorem refines_passOver {n : Node} {after : List Token} (h : n.Passes faults after) :
    Refines faults
      (do let span ← ofExcept (spanLength (n.tokens ++ after))
          tokens ((n.tokens ++ after).drop span.1))
      (tokens after) := by
  refine .of_outcome ?_
  rcases h with hfault | ⟨span, hspan, hsize⟩
  · exact .inl hfault
  · refine .inr ⟨span, hspan, ?_⟩
    rw [hsize, ← n.length_tokens, List.drop_left]
    exact .refl _

theorem leading_of_ne (cause : Inconsistency) {token : Token} {rest : List Token}
    (h : token.signal ≠ .opens .composite) : leading cause (token :: rest) = fail cause := by
  rw [leading.eq_def]
  simp [h]

/-- The tokens inside of a construct do not begin with a composite, or there are two more: a composite
has a token that closes it, and so has what is around it. -/
theorem leads_inside (construct : Construct) (closing : Entry) : ∀ parts : List Node,
    3 ≤ (tokensAll parts ++ [closeToken construct closing]).length ∨
      ∃ token rest, tokensAll parts ++ [closeToken construct closing] = token :: rest ∧
        token.signal ≠ .opens .composite
  | [] => .inr ⟨_, _, rfl, by simp⟩
  | .leaf atom entry :: rest => .inr ⟨_, _, rfl, by cases atom <;> simp [Atom.signal]⟩
  | .span first opening parts last :: rest => by
    left
    simp only [List.length_append, Node.length_tokensAll, sizeAll, Node.size, List.length_singleton]
    omega

/-- What leads a group or variable data is inside of it. -/
theorem leading_append (cause : Inconsistency) (construct : Construct) (closing : Entry)
    (parts : List Node) (after : List Token) :
    leading cause (tokensAll parts ++ closeToken construct closing :: after) =
      leading cause (tokensAll parts ++ [closeToken construct closing]) := by
  rw [List.append_cons]
  rcases leads_inside construct closing parts with hlong | ⟨token, rest, hinside, hne⟩
  · match tokensAll parts ++ [closeToken construct closing], hlong with
    | _ :: _ :: _ :: _, _ => rfl
  · rw [hinside, List.cons_append, leading_of_ne cause hne, leading_of_ne cause hne]

theorem leading_of_not_composite (cause : Inconsistency) {parts : List Node} {after : List Token} :
    ∀ first : Node, first.isComposite = false →
      leading cause (tokensAll (first :: parts) ++ after) = fail cause
  | .leaf atom _, _ => by cases atom <;> rfl
  | .span construct _ _ _, h => by
    rw [tokensAll, Node.tokens, List.cons_append, List.cons_append, leading_of_ne]
    cases construct <;> simp_all [Node.isComposite]

/-- The tokens of a construct, with those after it. -/
theorem tokens_span_append (construct : Construct) (opening closing : Entry) (parts : List Node)
    (after : List Token) :
    (Node.span construct opening parts closing).tokens ++ after =
      openToken construct opening parts ::
        (tokensAll parts ++ closeToken construct closing :: after) := by
  rw [Node.tokens, List.cons_append, List.append_assoc, List.singleton_append]

/-- The tokens after those of a construct. -/
theorem drop_span (construct : Construct) (opening closing : Entry) (parts : List Node)
    (after : List Token) :
    (openToken construct opening parts ::
        (tokensAll parts ++ closeToken construct closing :: after)).drop
      (Node.span construct opening parts closing).size = after := by
  rw [← tokens_span_append, ← Node.length_tokens, List.drop_left]

/-- Nothing follows the last token. -/
theorem bind_tokens_nil (x : Walk Unit) : (x >>= fun _ => tokens []) = x := by
  rw [tokens]
  exact bind_pure x

/-- The tokens of the parts of a construct, cut out of those of the construct. -/
theorem drop_take_span (construct : Construct) (opening closing : Entry) (parts : List Node)
    (after : List Token) :
    ((openToken construct opening parts ::
        (tokensAll parts ++ closeToken construct closing :: after)).take
      ((Node.span construct opening parts closing).size - 1)).drop 1 = tokensAll parts := by
  have hsize : (Node.span construct opening parts closing).size - 1 = (tokensAll parts).length + 1 := by
    rw [Node.size, Node.length_tokensAll]
    rfl
  rw [hsize, List.take_succ_cons, List.take_left, List.drop_succ_cons, List.drop_zero]

/-- The tokens behind the first part of a construct, with the one that closes it. -/
theorem drop_take_behind (construct : Construct) (opening closing : Entry) (first : Node)
    (parts : List Node) (after : List Token) :
    ((openToken construct opening (first :: parts) ::
        (tokensAll (first :: parts) ++ closeToken construct closing :: after)).take
      (Node.span construct opening (first :: parts) closing).size).drop (1 + first.size) =
        tokensAll parts ++ [closeToken construct closing] := by
  have hsize : (Node.span construct opening (first :: parts) closing).size =
      (first.tokens ++ (tokensAll parts ++ [closeToken construct closing])).length + 1 := by
    simp only [Node.size, sizeAll, List.length_append, Node.length_tokens, Node.length_tokensAll,
      List.length_singleton]
    omega
  have htokens : tokensAll (first :: parts) ++ closeToken construct closing :: after =
      (first.tokens ++ (tokensAll parts ++ [closeToken construct closing])) ++ after := by
    simp [tokensAll]
  rw [hsize, htokens, List.take_succ_cons, List.take_left, Nat.add_comm, List.drop_succ_cons,
    ← first.length_tokens, List.drop_left]

/-- Whether the block is closed behind a walk that succeeds. -/
def Ends (x : Walk Unit) : Prop :=
  ∀ w u, x w = .ok () u → u.isClosed = true

theorem ends_close : Ends close :=
  fun _ _ h => (close_ok h).isClosed

/-- A block that is closed is not closed again. -/
theorem Ends.bind_close {x : Walk Unit} (h : Ends x) : (x >>= fun _ => close) = x := by
  funext w
  show EStateM.bind x _ w = x w
  unfold EStateM.bind
  cases hx : x w with
  | ok _ u => exact close_of_isClosed (h w u hx)
  | error => rfl

/-- A plan is closed at last, so closing it before is no matter. -/
theorem inner_bind_close (kind : EntityKind) (isExtensible : Bool) (token : Token) (walk : Walk Unit) :
    inner kind isExtensible token (walk >>= fun _ => close) = inner kind isExtensible token walk := by
  have hfinish : (close >>= fun _ => finish) = finish := by
    unfold finish
    rw [← bind_assoc, ends_close.bind_close]
  unfold inner fresh
  simp only [bind_assoc, hfinish]

/-- The walk over a group: its counts may be refused, and where they are not, the walks inside and behind
are to be compared. -/
theorem refines_group {opening closing : Entry} {dimensions : Node} {members : List Node}
    {inside : List Token} {f : Unit → Walk Unit} {behind : Walk Unit}
    (hleading : ∀ cause, leading cause inside =
      leading cause (tokensAll (dimensions :: members) ++ [closeToken .group closing]))
    (hspan : (∃ fault, spanLength (openToken .group opening (dimensions :: members) :: inside) =
        .error fault ∧ faults fault) ∨
      ∃ span, spanLength (openToken .group opening (dimensions :: members) :: inside) = .ok span ∧
        Refines faults (tokens ((openToken .group opening (dimensions :: members) :: inside).drop span.1) >>= f)
          behind ∧
        (dimensions.isComposite = true → (∃ fault, spanLength inside = .error fault ∧ faults fault) ∨
          ∃ first, spanLength inside = .ok first ∧
            Refines faults (tokens (((openToken .group opening (dimensions :: members) :: inside).take
                span.1).drop (1 + first.1)) >>= fun _ => close)
              (nodes members >>= fun _ => close))) :
    Refines faults (tokens (openToken .group opening (dimensions :: members) :: inside) >>= f)
      (node (.span .group opening (dimensions :: members) closing) >>= fun _ => behind) := by
  rw [tokens.eq_def, node]
  simp only [Node.signal_openToken, bind_assoc]
  refine .bind_left _ fun _ => .of_outcome (hspan.imp_right ?_)
  rintro ⟨span, hspan, hbehind, hinside⟩
  refine ⟨span, hspan, ?_⟩
  rw [hleading]
  cases hcomposite : dimensions.isComposite with
  | false =>
    rw [← List.append_nil [closeToken .group closing], leading_of_not_composite _ _ hcomposite]
    exact fun w => .inl rfl
  | true =>
    refine .bind_left _ fun lead => .of_outcome ((hinside hcomposite).imp_right ?_)
    rintro ⟨first, hfirst, hmembers⟩
    refine ⟨first, hfirst, ?_⟩
    rw [← inner_bind_close]
    exact .bind (.inner _ _ _ hmembers) fun _ => .bind_left _ fun _ => hbehind

mutual

theorem refines_node : ∀ (n : Node) (after : List Token), n.Sound faults after →
    Refines faults (tokens (n.tokens ++ after)) (node n >>= fun _ => tokens after)
  | .leaf atom entry, after, _ => by
    have hatom : node (.leaf atom entry) >>= (fun _ => tokens after) =
        tokens ((entry.withSignal atom.signal).token :: after) := by
      rw [tokens.eq_def (_ :: after)]
      cases atom <;> simp only [node, Entry.signal_withSignal, Atom.signal, bind_assoc, pure_bind]
    rw [hatom]
    exact .refl _
  | .span .message opening parts closing, after, h => by
    rw [tokens_span_append, tokens.eq_def, node]
    simp only [Node.signal_openToken, bind_assoc]
    refine .bind_left _ fun _ => (refines_nodes parts _ h).trans (.bind_left _ fun _ => ?_)
    rw [tokens.eq_def]
    exact .refl _
  | .span .field opening parts closing, after, h => by
    have hpass := refines_passOver h
    -- The first token inside is that of the type.
    obtain ⟨type, tail, hinside⟩ :=
      List.exists_cons_of_ne_nil (l := tokensAll parts ++ [closeToken .field closing]) (by simp)
    rw [tokens_span_append, List.append_cons, hinside, List.cons_append] at hpass ⊢
    rw [tokens.eq_def, node]
    simp only [Node.signal_openToken, bind_assoc, hinside, List.head_cons]
    exact .bind_left _ fun _ => .bind_left _ fun _ => .bind_left _ fun _ => hpass
  | .span .enumeration opening parts closing, after, h
  | .span .choiceSet opening parts closing, after, h => by
    have hpass := refines_passOver h
    rw [tokens_span_append] at hpass ⊢
    rw [tokens.eq_def, node]
    simp only [Node.signal_openToken, bind_assoc]
    exact .bind_left _ fun _ => .bind_left _ fun _ => .bind_left _ fun _ => hpass
  | .span .varData opening parts closing, after, h => by
    have hpass := refines_passOver h
    rw [tokens_span_append] at hpass ⊢
    rw [tokens.eq_def, node]
    simp only [Node.signal_openToken, bind_assoc]
    rw [leading_append]
    exact .bind_left _ fun _ => .bind_left _ fun _ => .bind_left _ fun _ => hpass
  | .span .composite opening parts closing, after, h => by
    obtain ⟨hpass, hparts⟩ := h
    unfold Node.Passes at hpass
    rw [tokens_span_append] at hpass ⊢
    rw [tokens.eq_def, node]
    simp only [Node.signal_openToken, bind_assoc]
    refine .bind_left _ fun _ => .of_outcome (hpass.imp_right ?_)
    rintro ⟨span, hspan, hsize⟩
    refine ⟨span, hspan, ?_⟩
    -- The plan of the composite is that of its members alone.
    have hnested := refines_nodes parts [] hparts
    rw [List.append_nil, bind_tokens_nil] at hnested
    rw [hsize, drop_take_span, drop_span]
    exact .bind (.inner _ _ _ hnested) fun _ => .refl _
  | .span .group opening [] closing, after, h => by
    obtain ⟨hpass, -⟩ := h
    unfold Node.Passes at hpass
    rw [tokens_span_append] at hpass ⊢
    rw [tokens.eq_def, node]
    simp only [Node.signal_openToken, bind_assoc]
    refine .bind_left _ fun _ => .of_outcome (hpass.imp_right ?_)
    rintro ⟨span, hspan, -⟩
    -- A group without dimensions is refused by both, wherever its count leads.
    refine ⟨span, hspan, fun w => .inl ?_⟩
    rfl
  | .span .group opening (dimensions :: members) closing, after, h => by
    obtain ⟨hpass, hdimensions, hmembers⟩ := h
    unfold Node.Passes at hpass
    rw [tokens_span_append] at hpass ⊢
    rw [← bind_pure (tokens _)]
    refine refines_group (fun cause => leading_append ..) (hpass.imp_right ?_)
    rintro ⟨span, hspan, hsize⟩
    refine ⟨span, hspan, ?_, fun hcomposite => ?_⟩
    · rw [hsize, drop_span, bind_pure]
      exact .refl _
    · have hpass := hdimensions hcomposite
      unfold Node.Passes at hpass
      rw [← List.append_assoc, ← tokensAll] at hpass
      refine hpass.imp_right ?_
      rintro ⟨first, hfirst, hlength⟩
      refine ⟨first, hfirst, ?_⟩
      -- The token that closes the group is the last of the element, where the walk over the tree closes.
      have helement := refines_nodes members [closeToken .group closing] hmembers
      rw [tokens_closes (Node.signal_closeToken ..), bind_tokens_nil] at helement
      rw [hsize, hlength, drop_take_behind]
      have hclosed := helement.bind fun _ => .refl close
      rwa [bind_assoc, ends_close.bind_close] at hclosed

theorem refines_nodes : ∀ (forest : List Node) (after : List Token),
    Node.SoundAll faults forest after →
      Refines faults (tokens (tokensAll forest ++ after)) (nodes forest >>= fun _ => tokens after)
  | [], after, _ => by
    rw [tokensAll, List.nil_append, nodes, pure_bind]
    exact .refl _
  | n :: rest, after, h => by
    rw [tokensAll, nodes, List.append_assoc, bind_assoc]
    exact (refines_node n _ h.1).trans (.bind_left _ fun _ => refines_nodes rest after h.2)

end

end Walk

end SimpleBinary
