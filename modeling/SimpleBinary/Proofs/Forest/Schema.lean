import SimpleBinary.Proofs.Forest.Count

/-!
Plans of schema trees.

A message of a schema is a tree: fields with their types, groups with their dimensions and members, and
variable data with its length. It reaches the walker as a flat list of tokens, in which only counts tell
where a part ends. What comes out is the tree again: apart from padding, the extension skip and range
checks, a plan has one step for each child, in order, with the tokens of that child, and the plan of a
group element or of a member composite has the same relation to the children there
(`MemberStep`, `TypeStep`).

The relation is shown by recursion over the tree, for the walk over the forest; that the walk over the
tokens is the same is known already (`Walk.tokens_of_derived`).
-/

set_option autoImplicit false

namespace SimpleBinary

open Node (openToken closeToken tokensAll)

/-! ## Schema trees -/

/-- The type of a field, or a member of a composite. -/
inductive TypeTree where
  | encoding (token : Token)
  | enumeration (opening : Token) (values : List Token) (closing : Token)
  | choiceSet (opening : Token) (choices : List Token) (closing : Token)
  | composite (opening : Token) (members : List TypeTree) (closing : Token)

/-- The composite that a group or variable data begins with. -/
structure CompositeTree where
  opening : Token
  members : List TypeTree
  closing : Token

/-- A member of a message or of a group. -/
inductive MemberTree where
  | field (opening : Token) (type : TypeTree) (closing : Token)
  | group (opening : Token) (dimensions : CompositeTree) (members : List MemberTree)
    (closing : Token)
  | varData (opening : Token) (length : CompositeTree) (closing : Token)

/-- A message. -/
structure MessageTree where
  opening : Token
  members : List MemberTree
  closing : Token

/-- The entry of a token whose count is left to the reader. -/
def Entry.derived (token : Token) : Entry :=
  ⟨token, false⟩

namespace TypeTree

mutual

/-- The node of a type. -/
def node : TypeTree → Node
  | .encoding token => .leaf .encoding (.derived token)
  | .enumeration opening values closing =>
    .span .enumeration (.derived opening) (values.map fun v => .leaf .validValue (.derived v))
      (.derived closing)
  | .choiceSet opening choices closing =>
    .span .choiceSet (.derived opening) (choices.map fun c => .leaf .choice (.derived c))
      (.derived closing)
  | .composite opening members closing =>
    .span .composite (.derived opening) (nodes members) (.derived closing)

/-- The nodes of several types. -/
def nodes : List TypeTree → List Node
  | [] => []
  | t :: rest => t.node :: nodes rest

end

/-- The token of a type: that of the encoding, or the one that opens the type. -/
def token : TypeTree → Token
  | .encoding token => ((Entry.derived token).withSignal .encoding).token
  | .enumeration opening values _ =>
    openToken .enumeration (.derived opening) (values.map fun v => .leaf .validValue (.derived v))
  | .choiceSet opening choices _ =>
    openToken .choiceSet (.derived opening) (choices.map fun c => .leaf .choice (.derived c))
  | .composite opening members _ => openToken .composite (.derived opening) (nodes members)

/-- Whether a type is a composite. -/
def isComposite : TypeTree → Bool
  | .composite .. => true
  | _ => false

/-- The step of a field of the type. -/
def fieldStep (field : Token) (type : TypeTree) : Step :=
  match type with
  | .encoding _ => .primitive field type.token
  | .enumeration .. => .typed .enumeration type.token.typeName field type.token none
  | .choiceSet .. => .typed .choiceSet type.token.typeName field type.token none
  | .composite .. => .typed .composite type.token.typeName field type.token none

end TypeTree

namespace CompositeTree

/-- The node of a composite. -/
def node (c : CompositeTree) : Node :=
  .span .composite (.derived c.opening) (TypeTree.nodes c.members) (.derived c.closing)

/-- The token that opens a composite. -/
def token (c : CompositeTree) : Token :=
  openToken .composite (.derived c.opening) (TypeTree.nodes c.members)

/-- The tokens of a composite. -/
def tokens (c : CompositeTree) : List Token :=
  c.node.tokens

end CompositeTree

namespace MemberTree

mutual

/-- The node of a member. -/
def node : MemberTree → Node
  | .field opening type closing =>
    .span .field (.derived opening) [type.node] (.derived closing)
  | .group opening dimensions members closing =>
    .span .group (.derived opening) (dimensions.node :: nodes members) (.derived closing)
  | .varData opening length closing =>
    .span .varData (.derived opening) [length.node] (.derived closing)

/-- The nodes of several members. -/
def nodes : List MemberTree → List Node
  | [] => []
  | m :: rest => m.node :: nodes rest

end

/-- The tokens of a member. -/
def tokens (m : MemberTree) : List Token :=
  m.node.tokens

/-- The token that opens a member. -/
def token : MemberTree → Token
  | .field opening type _ => openToken .field (.derived opening) [type.node]
  | .group opening dimensions members _ =>
    openToken .group (.derived opening) (dimensions.node :: nodes members)
  | .varData opening length _ => openToken .varData (.derived opening) [length.node]

end MemberTree

namespace MessageTree

/-- The node of a message. -/
def node (m : MessageTree) : Node :=
  .span .message (.derived m.opening) (MemberTree.nodes m.members) (.derived m.closing)

/-- The token that opens a message. -/
def token (m : MessageTree) : Token :=
  openToken .message (.derived m.opening) (MemberTree.nodes m.members)

/-- The tokens of a message, with counts that the brackets show. -/
def tokens (m : MessageTree) : List Token :=
  m.node.tokens

end MessageTree

/-- The reader of token lists makes these tokens of the message. -/
theorem MessageTree.pair_entries (m : MessageTree) :
    Entry.pair 0 [] [] m.node.entries = .ok m.tokens :=
  Entry.pair_node m.node

/-! ## Steps of a schema tree -/

/-- Whether a step stands for a child: it is neither padding nor the extension skip nor a range check. -/
def Step.isChild : Step → Bool
  | .gap .. | .extensionSkip _ | .encodeValidation | .decodeValidation => false
  | _ => true

/-- The steps of a plan that stand for children. -/
def Plan.children (p : Plan) : List Step :=
  p.steps.filter Step.isChild

mutual

/-- The step of a member of a composite, whose class has a name. -/
inductive TypeStep : String → Step → TypeTree → Prop
  | plain {owner : String} {field : Token} {type : TypeTree} :
      type.isComposite = false → field = type.token → TypeStep owner (type.fieldStep field) type
  /-- A composite has a plan of its own, with a step for each of its members. -/
  | composite {owner : String} {token : Token} {plan : Plan} {opening closing : Token}
      {members : List TypeTree} : token = (TypeTree.composite opening members closing).token →
      plan.typeName = owner ++ Identifier.typeName token.name → plan.kind = .composite →
      plan.token = some token → TypeSteps plan.typeName plan.children members →
      TypeStep owner (.typed .composite (.text plan.typeName) token token (some plan))
        (.composite opening members closing)

/-- One step for each member of a composite, in order. -/
inductive TypeSteps : String → List Step → List TypeTree → Prop
  | nil {owner : String} : TypeSteps owner [] []
  | cons {owner : String} {step : Step} {type : TypeTree} {steps : List Step}
      {types : List TypeTree} : TypeStep owner step type → TypeSteps owner steps types →
      TypeSteps owner (step :: steps) (type :: types)

end

mutual

/-- The step of a member of a message or of a group, whose class has a name. -/
inductive MemberStep : String → Step → MemberTree → Prop
  | field {owner : String} {token opening closing : Token} {type : TypeTree} :
      token = (MemberTree.field opening type closing).token →
      MemberStep owner (type.fieldStep token) (.field opening type closing)
  /-- The elements of a group have a plan, with a step for each member of the group. What the group is
  measured with are the two tokens behind the one that opens the dimensions. -/
  | group {owner : String} {token blockLength numInGroup : Token} {rest : List Token} {element : Plan}
      {opening closing : Token} {dimensions : CompositeTree} {members : List MemberTree} :
      (MemberTree.group opening dimensions members closing).tokens =
        token :: dimensions.token :: blockLength :: numInGroup :: rest →
      element.typeName = owner ++ Identifier.typeName token.name → element.kind = .group →
      element.token = some token → MemberSteps element.typeName element.children members →
      MemberStep owner (.group token blockLength numInGroup element)
        (.group opening dimensions members closing)
  /-- The length and the data are the two tokens behind the one that opens the composite. -/
  | varData {owner : String} {token length data : Token} {rest : List Token}
      {opening closing : Token} {composite : CompositeTree} :
      (MemberTree.varData opening composite closing).tokens =
        token :: composite.token :: length :: data :: rest →
      MemberStep owner (.varData token length data) (.varData opening composite closing)

/-- One step for each member, in order. -/
inductive MemberSteps : String → List Step → List MemberTree → Prop
  | nil {owner : String} : MemberSteps owner [] []
  | cons {owner : String} {step : Step} {member : MemberTree} {steps : List Step}
      {members : List MemberTree} : MemberStep owner step member →
      MemberSteps owner steps members → MemberSteps owner (step :: steps) (member :: members)

end

/-! ## What a walk leaves -/

/-- A walk has added steps to the plan, of which the given ones stand for children. -/
def Walker.Leaves (w : Walker) (steps : List Step) (u : Walker) : Prop :=
  ∃ more, u.plan = (w.extend more).plan ∧ more.filter Step.isChild = steps

namespace Walker

variable {w v u : Walker} {field type : Token} {step : Step} {steps more : List Step}

theorem Leaves.typeName_eq (h : w.Leaves steps u) : u.plan.typeName = w.plan.typeName := by
  obtain ⟨_, hplan, -⟩ := h
  rw [hplan]
  rfl

theorem leaves_self (w : Walker) : w.Leaves [] w :=
  ⟨[], by rw [extend_nil], rfl⟩

theorem leaves_extend (w : Walker) (steps : List Step) :
    w.Leaves (steps.filter Step.isChild) (w.extend steps) :=
  ⟨steps, rfl, rfl⟩

theorem Leaves.trans (h₁ : w.Leaves steps v) (h₂ : v.Leaves more u) : w.Leaves (steps ++ more) u := by
  obtain ⟨first, hfirst, rfl⟩ := h₁
  obtain ⟨second, hsecond, rfl⟩ := h₂
  refine ⟨first ++ second, ?_, List.filter_append ..⟩
  rw [hsecond, ← extend_extend, extend, hfirst]
  rfl

theorem Closes.leaves (h : w.Closes u) : w.Leaves [] u := by
  cases h with
  | already => exact w.leaves_self
  | @now length known =>
    refine ⟨closing w.plan.isExtensible w.offset length known, rfl, ?_⟩
    rw [closing, List.filter_append]
    split <;> split <;> rfl

theorem Pads.leaves {size : Int} (h : w.Pads field type size v) : w.Leaves [] v := by
  cases h with
  | gap => exact leaves_extend ..
  | _ => exact w.leaves_self

theorem Places.leaves (h : w.Places field type step u) (hstep : step.isChild = true) :
    w.Leaves [step] u := by
  have hone (v : Walker) : v.Leaves [step] (v.extend [step]) := by
    have := v.leaves_extend [step]
    rwa [List.filter_cons_of_pos hstep] at this
  cases h with
  | constant => exact hone w
  | onWire _ hpads => exact hpads.leaves.trans (hone _)

end Walker

/-- The children of a plan are those that its walk leaves. -/
theorem Walk.fresh_children {blank plan : Plan} {walk : Walk Unit} {P : List Step → Prop}
    (hblank : blank.steps = []) (h : fresh blank walk = .ok plan)
    (hwalk : ∀ u, walk { plan := blank } = .ok () u →
      ∃ steps, ({ plan := blank } : Walker).Leaves steps u ∧ P steps) :
    P plan.children ∧ plan.typeName = blank.typeName ∧ plan.kind = blank.kind ∧
      plan.token = blank.token := by
  obtain ⟨u, v, hrun, hcloses, rfl⟩ := fresh_ok h
  obtain ⟨steps, hleaves, hP⟩ := hwalk u hrun
  obtain ⟨more, hplan, hmore⟩ := hleaves.trans hcloses.leaves
  rw [List.append_nil] at hmore
  rw [hplan, Plan.children]
  refine ⟨?_, rfl, rfl, rfl⟩
  rwa [Walker.extend_steps, hblank, List.nil_append, hmore]

/-! ## Types -/

namespace TypeTree

/-- The step of a field is that of its type. -/
theorem fieldStep_token (field : Token) (type : TypeTree) :
    Walk.fieldStep field type.token = pure (type.fieldStep field) := by
  cases type <;> simp [Walk.fieldStep, token, fieldStep]

/-- The first token of a field is that of its type. -/
theorem head_tokens (type : TypeTree) (rest : List Token) (h : tokensAll [type.node] ++ rest ≠ []) :
    (tokensAll [type.node] ++ rest).head h = type.token := by
  cases type <;> rfl

/-- A type that is no composite becomes a step. -/
theorem leaves_plain (type : TypeTree) {w u : Walker} (htype : type.isComposite = false)
    (h : (do
      let gap ← Walk.openField type.token type.token
      Walk.place type.token type.token gap (← Walk.fieldStep type.token type.token) : Walk Unit) w =
        .ok () u) :
    ∃ step, w.Leaves [step] u ∧ TypeStep w.plan.typeName step type := by
  obtain ⟨gap, v, hopen, h₁⟩ := Walk.bind_ok.mp h
  obtain ⟨step, _, hstep, hplace⟩ := Walk.bind_ok.mp h₁
  rw [fieldStep_token] at hstep
  obtain ⟨rfl, rfl⟩ := Walk.pure_ok.mp hstep
  refine ⟨_, (Walk.place_ok hopen hplace).leaves ?_, .plain htype rfl⟩
  cases type <;> rfl

mutual

/-- A member of a composite leaves its step. -/
theorem leaves : ∀ (type : TypeTree) {w u : Walker}, Walk.node type.node w = .ok () u →
    ∃ step, w.Leaves [step] u ∧ TypeStep w.plan.typeName step type
  | .encoding t, w, u, h => by
    rw [node, Walk.node] at h
    exact leaves_plain (.encoding t) rfl h
  | .enumeration opening values closing, w, u, h => by
    rw [node, Walk.node] at h
    exact leaves_plain (.enumeration opening values closing) rfl h
  | .choiceSet opening choices closing, w, u, h => by
    rw [node, Walk.node] at h
    exact leaves_plain (.choiceSet opening choices closing) rfl h
  | .composite opening members closing, w, u, h => by
    rw [node, Walk.node] at h
    obtain ⟨gap, v, hopen, h₁⟩ := Walk.bind_ok.mp h
    obtain ⟨nested, _, hinner, hplace⟩ := Walk.bind_ok.mp h₁
    obtain ⟨hnested, rfl⟩ := Walk.inner_ok hinner
    obtain ⟨hsteps, hname, hkind, htoken⟩ :=
      Walk.fresh_children (P := fun steps =>
        TypeSteps (v.plan.typeName ++ Identifier.typeName (composite opening members closing).token.name)
          steps members) rfl hnested fun u hu => leavesAll members hu
    -- Padding before the composite does not change whose member it is.
    have howner : v.plan.typeName = w.plan.typeName := by
      rcases Walk.openField_ok hopen with ⟨-, rfl⟩ | ⟨-, hpads⟩
      · rfl
      · exact hpads.leaves.typeName_eq
    refine ⟨_, (Walk.place_ok hopen hplace).leaves rfl, .composite rfl ?_ hkind htoken ?_⟩
    · rw [hname, ← howner]
      rfl
    · rw [hname]
      exact hsteps

/-- The members of a composite leave their steps. -/
theorem leavesAll : ∀ (types : List TypeTree) {w u : Walker},
    Walk.nodes (nodes types) w = .ok () u →
      ∃ steps, w.Leaves steps u ∧ TypeSteps w.plan.typeName steps types
  | [], w, u, h => by
    obtain ⟨-, rfl⟩ := Walk.pure_ok.mp h
    exact ⟨[], w.leaves_self, .nil⟩
  | type :: rest, w, u, h => by
    rw [nodes, Walk.nodes] at h
    obtain ⟨_, v, hfirst, hrest⟩ := Walk.bind_ok.mp h
    obtain ⟨step, hleaves, hstep⟩ := leaves type hfirst
    obtain ⟨steps, hleavesAll, hsteps⟩ := leavesAll rest hrest
    rw [hleaves.typeName_eq] at hsteps
    exact ⟨step :: steps, hleaves.trans hleavesAll, .cons hstep hsteps⟩

end

end TypeTree

/-! ## Members -/

namespace MemberTree

/-- The tokens of a group or of variable data begin with those that lead it. -/
theorem tokens_eq (opening : Token) {construct : Construct} {closing : Token} {composite : CompositeTree}
    {parts : List Node} {first second : Token}
    (h : ∃ t rest, tokensAll (composite.node :: parts) ++ [closeToken construct (.derived closing)] =
      t :: first :: second :: rest) :
    ∃ rest, (Node.span construct (.derived opening) (composite.node :: parts) (.derived closing)).tokens =
      openToken construct (.derived opening) (composite.node :: parts) ::
        composite.token :: first :: second :: rest := by
  obtain ⟨t, rest, hinside⟩ := h
  refine ⟨rest, ?_⟩
  rw [Node.tokens, hinside]
  have : t = composite.token := by
    have := congrArg List.head? hinside
    exact (Option.some.inj this).symm
  rw [this]

mutual

/-- A member leaves its step. -/
theorem leaves : ∀ (member : MemberTree) {w u : Walker}, Walk.node member.node w = .ok () u →
    ∃ step, w.Leaves [step] u ∧ MemberStep w.plan.typeName step member
  | .field opening type closing, w, u, h => by
    rw [node, Walk.node] at h
    obtain ⟨gap, v, hopen, h₁⟩ := Walk.bind_ok.mp h
    obtain ⟨step, _, hstep, hplace⟩ := Walk.bind_ok.mp h₁
    simp only [TypeTree.head_tokens] at hopen hstep hplace
    rw [TypeTree.fieldStep_token] at hstep
    obtain ⟨rfl, rfl⟩ := Walk.pure_ok.mp hstep
    refine ⟨_, (Walk.place_ok hopen hplace).leaves ?_, .field rfl⟩
    cases type <;> rfl
  | .group opening dimensions members closing, w, u, h => by
    rw [node, Walk.node] at h
    obtain ⟨_, v, hclose, h₁⟩ := Walk.bind_ok.mp h
    obtain ⟨⟨blockLength, numInGroup⟩, _, hleading, h₂⟩ := Walk.bind_ok.mp h₁
    obtain ⟨rfl, hinside⟩ := Walk.leading_ok hleading
    obtain ⟨element, _, hinner, hpush⟩ := Walk.bind_ok.mp h₂
    obtain ⟨helement, rfl⟩ := Walk.inner_ok hinner
    obtain rfl := Walk.push_ok.mp hpush
    obtain ⟨rest, htokens⟩ := tokens_eq opening hinside
    obtain ⟨hsteps, hname, hkind, htoken⟩ :=
      Walk.fresh_children (P := fun steps => MemberSteps (v.plan.typeName ++
        Identifier.typeName (group opening dimensions members closing).token.name) steps members)
        rfl helement fun u hu => by
          obtain ⟨_, v', hbehind, hclose'⟩ := Walk.bind_ok.mp hu
          obtain ⟨steps, hleaves, hsteps⟩ := leavesAll members hbehind
          have := hleaves.trans (Walk.close_ok hclose').leaves
          rw [List.append_nil] at this
          exact ⟨steps, this, hsteps⟩
    -- What closes the block leaves no step of a member, and the group is the one step behind it.
    have hclosed := (Walk.close_ok hclose).leaves
    refine ⟨_, hclosed.trans (Walker.leaves_extend _ _), .group htokens ?_ hkind htoken ?_⟩
    · rw [hname, ← hclosed.typeName_eq]
      rfl
    · rw [hname]
      exact hsteps
  | .varData opening length closing, w, u, h => by
    rw [node, Walk.node] at h
    obtain ⟨_, v, hclose, h₁⟩ := Walk.bind_ok.mp h
    obtain ⟨⟨first, second⟩, _, hleading, hpush⟩ := Walk.bind_ok.mp h₁
    obtain ⟨rfl, hinside⟩ := Walk.leading_ok hleading
    obtain rfl := Walk.push_ok.mp hpush
    obtain ⟨rest, htokens⟩ := tokens_eq opening hinside
    exact ⟨_, (Walk.close_ok hclose).leaves.trans (Walker.leaves_extend _ _), .varData htokens⟩

/-- The members leave their steps. -/
theorem leavesAll : ∀ (members : List MemberTree) {w u : Walker},
    Walk.nodes (nodes members) w = .ok () u →
      ∃ steps, w.Leaves steps u ∧ MemberSteps w.plan.typeName steps members
  | [], w, u, h => by
    obtain ⟨-, rfl⟩ := Walk.pure_ok.mp h
    exact ⟨[], w.leaves_self, .nil⟩
  | member :: rest, w, u, h => by
    rw [nodes, Walk.nodes] at h
    obtain ⟨_, v, hfirst, hrest⟩ := Walk.bind_ok.mp h
    obtain ⟨step, hleaves, hstep⟩ := leaves member hfirst
    obtain ⟨steps, hleavesAll, hsteps⟩ := leavesAll rest hrest
    rw [hleaves.typeName_eq] at hsteps
    exact ⟨step :: steps, hleaves.trans hleavesAll, .cons hstep hsteps⟩

end

end MemberTree

/-! ## Messages -/

theorem derivedAll_leaves (atom : Atom) (tokens : List Token) :
    Node.DerivedAll (tokens.map fun t => .leaf atom (.derived t)) := by
  induction tokens with
  | nil => trivial
  | cons t rest ih => exact ⟨trivial, ih⟩

mutual

theorem TypeTree.derived : ∀ type : TypeTree, type.node.Derived
  | .encoding _ => trivial
  | .enumeration _ _ _ => ⟨rfl, derivedAll_leaves _ _⟩
  | .choiceSet _ _ _ => ⟨rfl, derivedAll_leaves _ _⟩
  | .composite _ members _ => ⟨rfl, TypeTree.derivedAll members⟩

theorem TypeTree.derivedAll : ∀ types : List TypeTree, Node.DerivedAll (TypeTree.nodes types)
  | [] => trivial
  | type :: rest => ⟨type.derived, TypeTree.derivedAll rest⟩

end

mutual

theorem MemberTree.derived : ∀ member : MemberTree, member.node.Derived
  | .field _ type _ => ⟨rfl, type.derived, trivial⟩
  | .group _ dimensions members _ =>
    ⟨rfl, ⟨rfl, TypeTree.derivedAll dimensions.members⟩, MemberTree.derivedAll members⟩
  | .varData _ length _ => ⟨rfl, ⟨rfl, TypeTree.derivedAll length.members⟩, trivial⟩

theorem MemberTree.derivedAll :
    ∀ members : List MemberTree, Node.DerivedAll (MemberTree.nodes members)
  | [] => trivial
  | member :: rest => ⟨member.derived, MemberTree.derivedAll rest⟩

end

/-- A message leaves the steps of its members. -/
theorem MessageTree.leaves {m : MessageTree} {w u : Walker} (h : Walk.node m.node w = .ok () u) :
    ∃ steps, w.Leaves steps u ∧ MemberSteps w.plan.typeName steps m.members := by
  rw [node, Walk.node] at h
  obtain ⟨_, v, hpush, h₁⟩ := Walk.bind_ok.mp h
  obtain rfl := Walk.push_ok.mp hpush
  obtain ⟨_, v, hmembers, h₂⟩ := Walk.bind_ok.mp h₁
  obtain ⟨_, v', hclose, hlast⟩ := Walk.bind_ok.mp h₂
  obtain rfl := Walk.push_ok.mp hlast
  obtain ⟨steps, hleaves, hsteps⟩ := MemberTree.leavesAll m.members hmembers
  refine ⟨steps, ?_, hsteps⟩
  have hfront := (w.leaves_extend [.encodeValidation]).trans hleaves
  have hback := (Walk.close_ok hclose).leaves.trans (v'.leaves_extend [.decodeValidation])
  have := hfront.trans hback
  rwa [List.filter_cons_of_neg (by decide), List.filter_cons_of_neg (by decide), List.filter_nil,
    List.nil_append, List.append_nil, List.append_nil] at this

theorem MessageTree.memberSteps {typeName : String} {m : MessageTree} {plan : Plan}
    (h : Plan.ofMessage typeName m.tokens = .ok plan) :
    MemberSteps typeName plan.children m.members := by
  have hwalk : Walk.tokens m.tokens = Walk.node m.node :=
    Walk.tokens_of_derived_node ⟨rfl, MemberTree.derivedAll m.members⟩
  have hfresh : Plan.ofMessage typeName m.tokens =
      Walk.fresh {
        typeName
        kind := .message
        blockLength := m.token.encodedLength
        isExtensible := true
        token := some m.token } (Walk.tokens m.tokens) := rfl
  rw [hfresh, hwalk] at h
  exact (Walk.fresh_children (P := fun steps => MemberSteps typeName steps m.members) rfl h
    fun _ => leaves).1

theorem CompositeTree.typeSteps {typeName : String} {c : CompositeTree} {plan : Plan}
    (h : Plan.ofComposite typeName c.tokens = .ok plan) :
    TypeSteps typeName plan.children c.members := by
  have hwalk := Walk.tokens_of_derived (TypeTree.derivedAll c.members)
  have hfresh : Plan.ofComposite typeName c.tokens =
      Walk.fresh {
        typeName
        kind := .composite
        blockLength := c.token.encodedLength
        isExtensible := false
        token := some c.token } (Walk.tokens (tokensAll (TypeTree.nodes c.members))) := by
    rw [tokens, node, Node.tokens, Plan.ofComposite, List.dropLast_concat]
    rfl
  rw [hfresh, hwalk] at h
  exact (Walk.fresh_children (P := fun steps => TypeSteps typeName steps c.members) rfl h
    fun _ => TypeTree.leavesAll c.members).1

/-- **A plan is its schema tree.** Apart from padding, the extension skip and range checks, the plan of a
message has one step for each member, in order, and that of a composite one for each of its members; the
plans of group elements and member composites inside them have the same relation to the parts there. -/
theorem Plan.children_steps (typeName : String) :
    (∀ (m : MessageTree) (plan : Plan), Plan.ofMessage typeName m.tokens = .ok plan →
      MemberSteps typeName plan.children m.members) ∧
    (∀ (c : CompositeTree) (plan : Plan), Plan.ofComposite typeName c.tokens = .ok plan →
      TypeSteps typeName plan.children c.members) :=
  ⟨fun _ _ => MessageTree.memberSteps, fun _ _ => CompositeTree.typeSteps⟩

/-- A price: a mantissa, and an exponent in a composite of its own. -/
def priceTree : CompositeTree where
  opening := { signal := .opens .composite, name := "Price", encodedLength := some 9 }
  members := [
    .encoding { signal := .encoding, name := "mantissa", encodedLength := some 8 },
    .composite { signal := .opens .composite, name := "scale", encodedLength := some 1 }
      [.encoding { signal := .encoding, name := "exponent", encodedLength := some 1 }]
      { signal := .closes .composite, name := "scale" }]
  closing := { signal := .closes .composite, name := "Price" }

/-- A quote: a price, and a group of levels that have a size each. -/
def quoteTree : MessageTree where
  opening := { signal := .opens .message, name := "Quote", encodedLength := some 9 }
  members := [
    .field { signal := .opens .field, name := "price" }
      (.composite priceTree.opening priceTree.members priceTree.closing)
      { signal := .closes .field, name := "price" },
    .group { signal := .opens .group, name := "levels", encodedLength := some 4 }
      { opening := { signal := .opens .composite, name := "groupSizeEncoding" }
        members := [
          .encoding { signal := .encoding, name := "blockLength", encodedLength := some 2 },
          .encoding { signal := .encoding, name := "numInGroup", encodedLength := some 2 }]
        closing := { signal := .closes .composite, name := "groupSizeEncoding" } }
      [.field { signal := .opens .field, name := "size" }
        (.encoding { signal := .encoding, name := "uint32", encodedLength := some 4 })
        { signal := .closes .field, name := "size" }]
      { signal := .closes .group, name := "levels" }]
  closing := { signal := .closes .message, name := "Quote" }

/-- The plan of a quote has a step for the price and one for the levels, and that of a price has one for
the mantissa and one for the scale. -/
theorem quoteTree_children_steps :
    (∃ plan, Plan.ofMessage "Quote" quoteTree.tokens = .ok plan ∧ plan.children.length = 2 ∧
      MemberSteps "Quote" plan.children quoteTree.members) ∧
    (∃ plan, Plan.ofComposite "Price" priceTree.tokens = .ok plan ∧ plan.children.length = 2 ∧
      TypeSteps "Price" plan.children priceTree.members) := by
  have hquote : (Plan.ofMessage "Quote" quoteTree.tokens).map (·.children.length) = .ok 2 := by cbv
  have hprice : (Plan.ofComposite "Price" priceTree.tokens).map (·.children.length) = .ok 2 := by cbv
  constructor
  · cases h : Plan.ofMessage "Quote" quoteTree.tokens with
    | ok plan =>
      rw [h] at hquote
      exact ⟨plan, rfl, Except.ok.inj hquote, (Plan.children_steps "Quote").1 quoteTree plan h⟩
    | error fault =>
      rw [h] at hquote
      cases hquote
  · cases h : Plan.ofComposite "Price" priceTree.tokens with
    | ok plan =>
      rw [h] at hprice
      exact ⟨plan, rfl, Except.ok.inj hprice, (Plan.children_steps "Price").2 priceTree plan h⟩
    | error fault =>
      rw [h] at hprice
      cases hprice

end SimpleBinary
