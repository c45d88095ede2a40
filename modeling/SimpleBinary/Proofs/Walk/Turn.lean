import Mathlib
import SimpleBinary.Plan.Walker
import SimpleBinary.Proofs.Results

/-!
Turns of a walk.

A walk goes from token to token, and each token is one turn: the walk makes its first turn, and then is
the walk over the tokens that the turn goes on with (`Walk.tokens_cons`). Here is said once what a turn
does where nothing fails (`Walk.turn_ok`): how a field pads and advances, how the block is closed, and
what a group, variable data or a member composite leaves in the plan. Whatever holds of every walk is
then a matter of one case for each kind of turn (`Turn`), and of one induction over the turns
(`Walk.tokens_induction`).
-/

set_option autoImplicit false

namespace SimpleBinary

/-- What closes a block that reaches an offset: the padding up to the declared length and, where newer
schemas may extend the entity, the extension skip. -/
def closing (isExtensible : Bool) (offset length : Int) (known : List (Int × Int)) : List Step :=
  (if offset < length then [.gap (length - offset) (some 0) true] else []) ++
    (if isExtensible then [.extensionSkip known] else [])

namespace Walker

/-- The walker with more steps in its plan. -/
def extend (w : Walker) (steps : List Step) : Walker :=
  { w with plan := { w.plan with steps := w.plan.steps ++ steps } }

/-- The walker behind a field of a version that ends at an offset. -/
def advance (w : Walker) (version : Option Int) (reached : Int) : Walker :=
  { w with offset := reached, ends := w.ends.record version reached }

/-- The empty plan of a part of the walked entity. -/
def part (w : Walker) (kind : EntityKind) (isExtensible : Bool) (token : Token) : Plan where
  typeName := w.plan.typeName ++ Identifier.typeName token.name
  kind := kind
  blockLength := token.encodedLength
  isExtensible := isExtensible
  token := some token

section

variable (w : Walker) (steps : List Step) (version : Option Int) (reached : Int)

@[simp] theorem extend_steps : (w.extend steps).plan.steps = w.plan.steps ++ steps := rfl

@[simp] theorem extend_nil : w.extend [] = w := by
  obtain ⟨⟨_, _, _, _, _, _, _⟩, _, _, _⟩ := w
  simp only [extend, List.append_nil]

@[simp] theorem extend_extend (more : List Step) :
    (w.extend steps).extend more = w.extend (steps ++ more) := by
  simp only [extend, List.append_assoc]

@[simp] theorem extend_offset : (w.extend steps).offset = w.offset := rfl

@[simp] theorem extend_isClosed : (w.extend steps).isClosed = w.isClosed := rfl

@[simp] theorem extend_ends : (w.extend steps).ends = w.ends := rfl

@[simp] theorem extend_blockLength : (w.extend steps).plan.blockLength = w.plan.blockLength := rfl

@[simp] theorem extend_isExtensible :
    (w.extend steps).plan.isExtensible = w.plan.isExtensible := rfl

@[simp] theorem advance_plan : (w.advance version reached).plan = w.plan := rfl

@[simp] theorem advance_offset : (w.advance version reached).offset = reached := rfl

@[simp] theorem advance_isClosed : (w.advance version reached).isClosed = w.isClosed := rfl

@[simp] theorem advance_ends :
    (w.advance version reached).ends = w.ends.record version reached := rfl

end

/-- The padding in front of a field: none where no offset or the reached one is declared, and
otherwise a gap up to the declared offset. -/
inductive Pads (w : Walker) (field type : Token) : Int → Walker → Prop
  | undeclared : Walk.declaredOffset field type = none → Pads w field type 0 w
  | reached : Walk.declaredOffset field type = some w.offset → Pads w field type 0 w
  | gap {size : Int} : 0 < size → Walk.declaredOffset field type = some (w.offset + size) →
      Pads w field type size (w.extend [.gap size field.version false])

/-- Padding leaves the offset where it is: it is the field that advances over its gap. -/
theorem Pads.offset_eq {w v : Walker} {field type : Token} {size : Int}
    (h : w.Pads field type size v) : v.offset = w.offset := by
  cases h <;> rfl

/-- Padding does not change what the parts of the entity are called. -/
theorem Pads.part_eq {w v : Walker} {field type : Token} {size : Int}
    (h : w.Pads field type size v) : v.part = w.part := by
  cases h <;> rfl

/-- A field recorded as a step: a constant is only recorded, any other field pads and advances. -/
inductive Places (w : Walker) (field type : Token) (step : Step) : Walker → Prop
  | constant : Walk.isConstant field type = true → Places w field type step (w.extend [step])
  | onWire {size length : Int} {v : Walker} : Walk.isConstant field type = false →
      Pads w field type size v → type.encodedLength = some length →
      Places w field type step
        ((v.extend [step]).advance field.version (w.offset + (size + length)))

/-- The fixed block closed: nothing is left to do where it is closed already. -/
inductive Closes (w : Walker) : Walker → Prop
  | already : w.isClosed = true → Closes w w
  | now {length : Int} {known : List (Int × Int)} : w.isClosed = false →
      w.plan.blockLength = some length →
      (w.plan.isExtensible = true → w.ends.knownLengths = .ok known) →
      Closes w ({ w with isClosed := true }.extend
        (closing w.plan.isExtensible w.offset length known))

theorem Closes.isClosed {w u : Walker} (h : w.Closes u) : u.isClosed = true := by
  cases h with
  | already hclosed => exact hclosed
  | now => rfl

/-- The step that a field leaves, by the signal of its type. A composite that is a member itself has
a plan of its own. -/
inductive Records (w : Walker) (field type : Token) : Step → Prop
  | primitive : type.signal = .encoding → Records w field type (.primitive field type)
  | enumeration : type.signal = .opens .enumeration →
      Records w field type (.typed .enumeration type.typeName field type none)
  | choiceSet : type.signal = .opens .choiceSet →
      Records w field type (.typed .choiceSet type.typeName field type none)
  | composite : type.signal = .opens .composite →
      Records w field type (.typed .composite type.typeName field type none)
  | nested {body : List Token} {plan : Plan} : type.signal = .opens .composite → field = type →
      (w.part .composite false type).ofTokens body = .ok plan →
      Records w field type (.typed .composite (.text plan.typeName) field type (some plan))

end Walker

/-! ## Where the cursor stands -/

/-- What a walk meets: a field of the fixed block with the token of its type, or what closes the
block, which is a group, variable data or the end of the entity. -/
inductive Stop
  | field (field type : Token)
  | close

namespace Walk

/-- What a walk meets at a token, given the tokens after it. -/
def stopAt (token : Token) (rest : List Token) : Option Stop :=
  match token.signal with
  | .opens .field => rest.head?.map fun type => .field token type
  | .encoding | .opens .enumeration | .opens .choiceSet | .opens .composite =>
    some (.field token token)
  | .opens .group | .opens .varData | .closes .message | .closes .group => some .close
  | _ => none

/-- The tokens that a walk goes on with after a token: a construct is passed over as a whole, and
nothing follows one that has no end. -/
def after (token : Token) (rest : List Token) : List Token :=
  match token.signal with
  | .opens .message => rest
  | .opens _ =>
    match spanLength (token :: rest) with
    | .ok span => (token :: rest).drop span.1
    | .error _ => []
  | _ => rest

theorem after_suffix (token : Token) (rest : List Token) : after token rest <:+ token :: rest := by
  unfold after
  split
  · exact List.suffix_cons ..
  · split
    · exact List.drop_suffix ..
    · exact List.nil_suffix
  · exact List.suffix_cons ..

theorem length_after_le (token : Token) (rest : List Token) :
    (after token rest).length ≤ rest.length := by
  unfold after
  split
  · exact Nat.le_refl _
  · split
    · rename_i span _
      have := length_drop_span_lt span
      simp only [List.length_cons] at this
      omega
    · exact Nat.zero_le _
  · exact Nat.le_refl _

/-- Whether a construct that is passed over has an end. -/
def HasEnd (token : Token) (rest : List Token) : Prop :=
  ∀ construct, token.signal = .opens construct → construct ≠ .message →
    ∃ span, spanLength (token :: rest) = .ok span

/-- All that a walk over tokens meets, in the order in which it does. -/
def stops : List Token → List Stop
  | [] => []
  | token :: rest => (stopAt token rest).toList ++ stops (after token rest)
termination_by ts => ts.length
decreasing_by
  have := length_after_le token rest
  simp only [List.length_cons]
  omega

/-- Passes over a construct as a whole, and returns the tokens behind it. -/
def passOver (ts : List Token) : Walk (List Token) := do
  let span ← ofExcept (spanLength ts)
  return ts.drop span.1

/-- One turn of a walk: what it does at a token, and the tokens that it goes on with. A part that gets a
plan of its own is a walk of its own. -/
def turn (token : Token) (rest : List Token) : Walk (List Token) :=
  match token.signal with
  | .opens .message => do
    push .encodeValidation
    return rest
  | .closes .message => do
    close
    push .decodeValidation
    return rest
  | .closes .group => do
    close
    return rest
  | .opens .field =>
    match rest with
    | [] => fail (.fieldAlone token.name)
    | type :: _ => do
      let gap ← openField token type
      place token type gap (← fieldStep token type)
      passOver (token :: rest)
  | .encoding => do
    let gap ← openField token token
    place token token gap (.primitive token token)
    return rest
  | .opens .enumeration | .opens .choiceSet => do
    let gap ← openField token token
    place token token gap (← fieldStep token token)
    passOver (token :: rest)
  | .opens .composite => do
    let gap ← openField token token
    let span ← ofExcept (spanLength (token :: rest))
    let nested ← inner .composite false token
      (tokens (((token :: rest).take (span.1 - 1)).drop 1))
    place token token gap (.typed .composite (.text nested.typeName) token token (some nested))
    return (token :: rest).drop span.1
  | .opens .group => do
    close
    let span ← ofExcept (spanLength (token :: rest))
    let (blockLength, numInGroup) ← leading (.groupDimensions token.name) rest
    let dimensions ← ofExcept (spanLength rest)
    let element ← inner .group true token
      (tokens (((token :: rest).take span.1).drop (1 + dimensions.1)))
    push (.group token blockLength numInGroup element)
    return (token :: rest).drop span.1
  | .opens .varData => do
    close
    let (length, data) ← leading (.varDataLength token.name) rest
    push (.varData token length data)
    passOver (token :: rest)
  | _ => return rest

/-- **A walk is its first turn and the walk over the tokens behind it.** -/
theorem tokens_cons (token : Token) (rest : List Token) :
    tokens (token :: rest) = turn token rest >>= tokens := by
  rw [tokens.eq_def]
  unfold turn
  dsimp only
  cases token.signal with
  | opens construct =>
    cases construct with
    | field =>
      cases rest with
      | nil => rfl
      | cons => simp only [passOver, bind_assoc, pure_bind]
    | _ => simp only [passOver, bind_assoc, pure_bind]
  | closes construct => cases construct <;> simp only [bind_assoc, pure_bind]
  | _ => simp only [pure_bind, bind_assoc]

/-- At the end of a group the block is closed, and nothing else is done. -/
theorem tokens_closes {token : Token} (hs : token.signal = .closes .group) (rest : List Token) :
    tokens (token :: rest) = close >>= fun _ => tokens rest := by
  rw [tokens.eq_def]
  simp only [hs]

end Walk

/-- What a token does to a walker where nothing fails. -/
inductive Walker.Turn (token : Token) (rest : List Token) (w : Walker) : Walker → Prop
  | messageOpens : token.signal = .opens .message → Turn token rest w (w.extend [.encodeValidation])
  | messageCloses {u : Walker} : token.signal = .closes .message → w.Closes u →
      Turn token rest w (u.extend [.decodeValidation])
  | groupCloses {u : Walker} : token.signal = .closes .group → w.Closes u → Turn token rest w u
  | field {field type : Token} {step : Step} {u : Walker} :
      Walk.stopAt token rest = some (.field field type) → w.Records field type step →
      w.Places field type step u → Turn token rest w u
  | group {u : Walker} {blockLength numInGroup : Token} {span : SpanLength (token :: rest)}
      {dimensions : SpanLength rest} {element : Plan} :
      token.signal = .opens .group → w.Closes u → spanLength (token :: rest) = .ok span →
      spanLength rest = .ok dimensions →
      (u.part .group true token).ofTokens
        (((token :: rest).take span.1).drop (1 + dimensions.1)) = .ok element →
      Turn token rest w (u.extend [.group token blockLength numInGroup element])
  | varData {u : Walker} {length data : Token} : token.signal = .opens .varData → w.Closes u →
      Turn token rest w (u.extend [.varData token length data])
  | passes : (∀ construct, token.signal ≠ .opens construct) → Walk.stopAt token rest = none →
      Turn token rest w w

/-- A turn appends to the steps of the plan, and leaves the rest of the plan as it is. -/
theorem Walker.Turn.extends {token : Token} {rest : List Token} {w u : Walker}
    (h : w.Turn token rest u) : ∃ more, u.plan = (w.extend more).plan := by
  have hcloses {v : Walker} (h : w.Closes v) : ∃ more, v.plan = (w.extend more).plan := by
    cases h with
    | already => exact ⟨[], by rw [extend_nil]⟩
    | now => exact ⟨_, rfl⟩
  -- A step behind what a part of the turn has appended.
  have hlonger {v : Walker} (steps : List Step) (h : ∃ more, v.plan = (w.extend more).plan) :
      ∃ more, (v.extend steps).plan = (w.extend more).plan := by
    obtain ⟨more, hmore⟩ := h
    refine ⟨more ++ steps, ?_⟩
    rw [← extend_extend, extend, hmore]
    rfl
  cases h with
  | messageOpens => exact ⟨_, rfl⟩
  | messageCloses _ h => exact hlonger _ (hcloses h)
  | groupCloses _ h => exact hcloses h
  | group _ h => exact hlonger _ (hcloses h)
  | varData _ h => exact hlonger _ (hcloses h)
  | passes => exact ⟨[], by rw [extend_nil]⟩
  | field _ _ h =>
    cases h with
    | constant => exact ⟨_, rfl⟩
    | onWire _ hpads =>
      refine hlonger _ ?_
      cases hpads with
      | gap => exact ⟨_, rfl⟩
      | _ => exact ⟨[], by rw [extend_nil]⟩

/-! ## What holds of all steps -/

/-- Whether a step is one that a walk records apart from fields and groups. A gap is never empty. -/
def Step.isPlain : Step → Bool
  | .primitive .. | .typed .. | .group .. => false
  | .gap size _ _ => decide (0 < size)
  | _ => true

namespace Walker

variable {w u : Walker} {token : Token} {rest : List Token} {P : Step → Prop}

/-- What closes a block is plain. -/
theorem Closes.forall_steps (h : w.Closes u) (hplain : ∀ s : Step, s.isPlain = true → P s)
    (hw : ∀ s ∈ w.plan.steps, P s) : ∀ s ∈ u.plan.steps, P s := by
  cases h with
  | already => exact hw
  | now =>
    rw [extend_steps, closing]
    refine List.forall_mem_append.mpr ⟨hw, List.forall_mem_append.mpr ⟨?_, ?_⟩⟩
    · split
      · exact List.forall_mem_singleton.mpr (hplain _ (decide_eq_true (by omega)))
      · simp
    · split
      · exact List.forall_mem_singleton.mpr (hplain _ rfl)
      · simp

/-- A field is recorded behind padding, which is plain. -/
theorem Places.forall_steps {field type : Token} {step : Step} (h : w.Places field type step u)
    (hplain : ∀ s : Step, s.isPlain = true → P s) (hstep : P step) (hw : ∀ s ∈ w.plan.steps, P s) :
    ∀ s ∈ u.plan.steps, P s := by
  cases h with
  | constant => exact List.forall_mem_append.mpr ⟨hw, List.forall_mem_singleton.mpr hstep⟩
  | onWire _ hpads =>
    refine List.forall_mem_append.mpr ⟨?_, List.forall_mem_singleton.mpr hstep⟩
    cases hpads with
    | gap hsize =>
      exact List.forall_mem_append.mpr
        ⟨hw, List.forall_mem_singleton.mpr (hplain _ (decide_eq_true hsize))⟩
    | _ => exact hw

/-- **What holds of plain steps, and of the field or group of a turn, holds of all steps behind the turn**
if it holds of those before. -/
theorem Turn.forall_steps (h : w.Turn token rest u) (hplain : ∀ s : Step, s.isPlain = true → P s)
    (hfield : ∀ {field type step}, Walk.stopAt token rest = some (.field field type) →
      w.Records field type step → w.Places field type step u → P step)
    (hgroup : ∀ {v : Walker} {blockLength numInGroup : Token} {span : SpanLength (token :: rest)}
      {dimensions : SpanLength rest} {element : Plan},
      (v.part .group true token).ofTokens
        (((token :: rest).take span.1).drop (1 + dimensions.1)) = .ok element →
      P (.group token blockLength numInGroup element))
    (hw : ∀ s ∈ w.plan.steps, P s) : ∀ s ∈ u.plan.steps, P s := by
  have hbehind {v : Walker} {step : Step} (hstep : P step) (hv : ∀ s ∈ v.plan.steps, P s) :
      ∀ s ∈ (v.extend [step]).plan.steps, P s :=
    List.forall_mem_append.mpr ⟨hv, List.forall_mem_singleton.mpr hstep⟩
  cases h with
  | messageOpens => exact hbehind (hplain _ rfl) hw
  | messageCloses _ hcloses => exact hbehind (hplain _ rfl) (hcloses.forall_steps hplain hw)
  | groupCloses _ hcloses => exact hcloses.forall_steps hplain hw
  | field hstop hrecords hplaces =>
    exact hplaces.forall_steps hplain (hfield hstop hrecords hplaces) hw
  | group _ hcloses _ _ helement => exact hbehind (hgroup helement) (hcloses.forall_steps hplain hw)
  | varData _ hcloses => exact hbehind (hplain _ rfl) (hcloses.forall_steps hplain hw)
  | passes => exact hw

end Walker

namespace Walk

/-! ## Parts of a walk that succeed -/

section

variable {α β : Type} {w u : Walker}

theorem bind_ok {x : Walk α} {f : α → Walk β} {b : β} :
    (x >>= f) w = .ok b u ↔ ∃ a v, x w = .ok a v ∧ f a v = .ok b u :=
  state_bind_ok

theorem pure_ok {a b : α} : (pure a : Walk α) w = .ok b u ↔ a = b ∧ w = u :=
  state_pure_ok

theorem throw_ok {fault : Fault} {b : α} : (throw fault : Walk α) w = .ok b u ↔ False :=
  state_throw_ok

theorem fail_ok {cause : Inconsistency} {b : α} : (fail cause : Walk α) w = .ok b u ↔ False :=
  throw_ok

theorem ofExcept_ok {outcome : Except Fault α} {b : α} :
    ofExcept outcome w = .ok b u ↔ outcome = .ok b ∧ w = u := by
  cases outcome with
  | ok a => rw [ofExcept, pure_ok, Except.ok.injEq]
  | error fault => simp [ofExcept, throw_ok]

theorem get_ok {v : Walker} : (get : Walk Walker) w = .ok v u ↔ w = v ∧ w = u :=
  state_get_ok

theorem modify_ok {f : Walker → Walker} {b : Unit} :
    (modify f : Walk Unit) w = .ok b u ↔ f w = u :=
  state_modify_ok

theorem push_ok {step : Step} {b : Unit} : push step w = .ok b u ↔ w.extend [step] = u :=
  modify_ok

end

section

variable {w u : Walker}

theorem pad_ok {field type : Token} {size : Int} (h : pad field type w = .ok size u) :
    w.Pads field type size u := by
  rw [pad] at h
  cases hd : declaredOffset field type with
  | none =>
    rw [hd] at h
    obtain ⟨rfl, rfl⟩ := pure_ok.mp h
    exact .undeclared hd
  | some declared =>
    simp only [hd] at h
    obtain ⟨_, _, hget, h⟩ := bind_ok.mp h
    obtain ⟨rfl, rfl⟩ := get_ok.mp hget
    split at h
    · exact (fail_ok.mp h).elim
    · split at h
      · obtain ⟨rfl, rfl⟩ := pure_ok.mp h
        exact .reached (by rw [hd]; congr 1; omega)
      · obtain ⟨_, _, hpush, h⟩ := bind_ok.mp h
        obtain rfl := push_ok.mp hpush
        obtain ⟨rfl, rfl⟩ := pure_ok.mp h
        exact .gap (by omega) (by rw [hd]; congr 1; omega)

theorem openField_ok {field type : Token} {size : Int}
    (h : openField field type w = .ok size u) :
    (isConstant field type = true ∧ u = w) ∨
      (isConstant field type = false ∧ w.Pads field type size u) := by
  rw [openField] at h
  split at h
  · rename_i hc
    exact .inl ⟨hc, (pure_ok.mp h).2.symm⟩
  · rename_i hc
    exact .inr ⟨Bool.eq_false_iff.mpr hc, pad_ok h⟩

/-- A field that is opened does not change what the parts of the entity are called. -/
theorem part_of_openField {field type : Token} {size : Int} (h : openField field type w = .ok size u) :
    u.part = w.part := by
  rcases openField_ok h with ⟨-, rfl⟩ | ⟨-, hpads⟩
  · rfl
  · exact hpads.part_eq

/-- **A field that is opened and placed** is recorded behind its padding. -/
theorem place_ok {field type : Token} {step : Step} {size : Int} {v : Walker}
    (hopen : openField field type w = .ok size v)
    (hplace : place field type size step v = .ok () u) : w.Places field type step u := by
  rw [place] at hplace
  obtain ⟨_, _, hpush, hplace⟩ := bind_ok.mp hplace
  obtain rfl := push_ok.mp hpush
  rcases openField_ok hopen with ⟨hc, rfl⟩ | ⟨hc, hpads⟩
  · simp only [hc, Bool.not_true, Bool.false_eq_true, if_false] at hplace
    obtain ⟨-, rfl⟩ := pure_ok.mp hplace
    exact .constant hc
  · simp only [hc, Bool.not_false, if_true] at hplace
    cases hlength : type.encodedLength with
    | none =>
      simp only [hlength] at hplace
      exact (throw_ok.mp hplace).elim
    | some length =>
      simp only [hlength] at hplace
      obtain rfl := modify_ok.mp hplace
      -- Opening the field has recorded its padding, and not moved on yet.
      have hoffset : v.offset = w.offset := hpads.offset_eq
      have hplaces : w.Places field type step
          ((v.extend [step]).advance field.version (w.offset + (size + length))) :=
        .onWire hc hpads hlength
      rwa [← hoffset] at hplaces

theorem fieldStep_ok {field type : Token} {step : Step} {v : Walker}
    (h : fieldStep field type v = .ok step u) : v = u ∧ w.Records field type step := by
  unfold fieldStep at h
  cases hs : type.signal with
  | encoding =>
    simp only [hs] at h
    obtain ⟨rfl, rfl⟩ := pure_ok.mp h
    exact ⟨rfl, .primitive hs⟩
  | opens construct =>
    cases construct with
    | enumeration =>
      simp only [hs] at h
      obtain ⟨rfl, rfl⟩ := pure_ok.mp h
      exact ⟨rfl, .enumeration hs⟩
    | choiceSet =>
      simp only [hs] at h
      obtain ⟨rfl, rfl⟩ := pure_ok.mp h
      exact ⟨rfl, .choiceSet hs⟩
    | composite =>
      simp only [hs] at h
      obtain ⟨rfl, rfl⟩ := pure_ok.mp h
      exact ⟨rfl, .composite hs⟩
    | _ => simp only [hs, fail_ok] at h
  | _ => simp only [hs, fail_ok] at h

/-- The extension skip of an entity that newer schemas may extend. -/
theorem skip_ok {isExtensible : Bool} {ends : FieldEnds}
    (h : (if isExtensible = true then do push (.extensionSkip (← ofExcept ends.knownLengths))
      else pure () : Walk Unit) w = .ok () u) :
    ∃ known, (isExtensible = true → ends.knownLengths = .ok known) ∧
      u = w.extend (if isExtensible then [.extensionSkip known] else []) := by
  cases isExtensible with
  | true =>
    obtain ⟨known, _, hends, h⟩ := bind_ok.mp h
    obtain ⟨hknown, rfl⟩ := ofExcept_ok.mp hends
    exact ⟨known, fun _ => hknown, (push_ok.mp h).symm⟩
  | false =>
    obtain ⟨-, rfl⟩ := pure_ok.mp h
    exact ⟨[], by simp, w.extend_nil.symm⟩

theorem close_ok (h : close w = .ok () u) : w.Closes u := by
  rw [close] at h
  obtain ⟨_, _, hget, h⟩ := bind_ok.mp h
  obtain ⟨rfl, rfl⟩ := get_ok.mp hget
  cases hclosed : w.isClosed with
  | true =>
    simp only [hclosed, Bool.not_true, Bool.false_eq_true, if_false] at h
    obtain ⟨-, rfl⟩ := pure_ok.mp h
    exact .already hclosed
  | false =>
    simp only [hclosed, Bool.not_false, if_true] at h
    obtain ⟨_, _, hmodify, h⟩ := bind_ok.mp h
    obtain rfl := modify_ok.mp hmodify
    obtain ⟨_, _, hget, h⟩ := bind_ok.mp h
    obtain ⟨rfl, rfl⟩ := get_ok.mp hget
    cases hlength : w.plan.blockLength with
    | none =>
      simp only [hlength] at h
      exact (throw_ok.mp h).elim
    | some length =>
      simp only [hlength] at h
      -- The steps that are recorded here are those of closing, with and without the gap.
      have hnow (known : List (Int × Int)) :=
        @Walker.Closes.now w length known hclosed hlength
      split at h
      · rename_i hshort
        obtain ⟨_, _, hpush, h⟩ := bind_ok.mp h
        obtain rfl := push_ok.mp hpush
        obtain ⟨known, hknown, rfl⟩ := skip_ok h
        have := hnow known hknown
        rw [closing, if_pos hshort] at this
        rwa [Walker.extend_extend]
      · rename_i hfull
        obtain ⟨known, hknown, rfl⟩ := skip_ok h
        have := hnow known hknown
        rwa [closing, if_neg hfull, List.nil_append] at this

/-- A block that is closed is left as it is. -/
theorem close_of_isClosed (h : w.isClosed = true) : close w = .ok () w := by
  rw [close]
  show EStateM.bind get _ w = _
  unfold EStateM.bind
  show (if !w.isClosed then _ else pure () : Walk Unit) w = _
  rw [h]
  rfl

theorem leading_ok {cause : Inconsistency} {ts : List Token} {first second : Token}
    (h : leading cause ts w = .ok (first, second) u) :
    w = u ∧ ∃ composite rest, ts = composite :: first :: second :: rest := by
  unfold leading at h
  split at h
  · exact (throw_ok.mp h).elim
  · split at h
    · split at h
      · obtain ⟨hlead, rfl⟩ := pure_ok.mp h
        cases hlead
        exact ⟨rfl, _, _, rfl⟩
      · exact (throw_ok.mp h).elim
    · exact (fail_ok.mp h).elim

theorem inner_ok {kind : EntityKind} {isExtensible : Bool} {token : Token} {walk : Walk Unit}
    {plan : Plan} (h : inner kind isExtensible token walk w = .ok plan u) :
    fresh (w.part kind isExtensible token) walk = .ok plan ∧ w = u := by
  rw [inner] at h
  obtain ⟨_, _, hget, h⟩ := bind_ok.mp h
  obtain ⟨rfl, rfl⟩ := get_ok.mp hget
  obtain ⟨hfresh, rfl⟩ := ofExcept_ok.mp h
  exact ⟨hfresh, rfl⟩

end

/-! ## A turn -/

section

variable {token : Token} {rest : List Token} {w u : Walker}

theorem after_of_span {construct : Construct} (hs : token.signal = .opens construct)
    (hmessage : construct ≠ .message) {span : SpanLength (token :: rest)}
    (hspan : spanLength (token :: rest) = .ok span) :
    after token rest = (token :: rest).drop span.1 := by
  unfold after
  cases construct <;> simp_all

theorem hasEnd_of_not_opens (h : ∀ construct, token.signal ≠ .opens construct) :
    HasEnd token rest :=
  fun construct hs => absurd hs (h construct)

theorem hasEnd_of_message (h : token.signal = .opens .message) : HasEnd token rest := by
  intro construct hs hmessage
  rw [h, Signal.opens.injEq] at hs
  exact absurd hs.symm hmessage

theorem hasEnd_of_span {span : SpanLength (token :: rest)}
    (hspan : spanLength (token :: rest) = .ok span) : HasEnd token rest :=
  fun _ _ _ => ⟨span, hspan⟩

/-- A construct is passed over only if it has an end. -/
theorem passOver_ok {construct : Construct} (hs : token.signal = .opens construct)
    (hmessage : construct ≠ .message) {more : List Token}
    (h : passOver (token :: rest) w = .ok more u) :
    w = u ∧ HasEnd token rest ∧ more = after token rest := by
  obtain ⟨span, _, hof, h⟩ := bind_ok.mp h
  obtain ⟨hspan, rfl⟩ := ofExcept_ok.mp hof
  obtain ⟨rfl, rfl⟩ := pure_ok.mp h
  exact ⟨rfl, hasEnd_of_span hspan, (after_of_span hs hmessage hspan).symm⟩

/-- What is recorded of a field is the step of its type. -/
theorem recordField_ok {α : Type} {field type : Token} {x : Walk α} {a : α}
    (h : (do let gap ← openField field type
             place field type gap (← fieldStep field type)
             x) w = .ok a u) :
    ∃ step v, w.Records field type step ∧ w.Places field type step v ∧ x v = .ok a u := by
  obtain ⟨_, _, hopen, h₁⟩ := bind_ok.mp h
  obtain ⟨step, _, hstep, h₂⟩ := bind_ok.mp h₁
  obtain ⟨rfl, hrecords⟩ := fieldStep_ok (w := w) hstep
  obtain ⟨_, v, hplace, h₃⟩ := bind_ok.mp h₂
  exact ⟨step, v, hrecords, place_ok hopen hplace, h₃⟩

/-- A member composite, its own tokens left aside, has the plan of a walk over what is between them. -/
theorem turn_composite_ok (hs : token.signal = .opens .composite) {more : List Token}
    (h : turn token rest w = .ok more u) :
    ∃ (span : SpanLength (token :: rest)) (nested : Plan),
      spanLength (token :: rest) = .ok span ∧
      (w.part .composite false token).ofTokens (((token :: rest).take (span.1 - 1)).drop 1) = .ok nested ∧
      w.Places token token (.typed .composite (.text nested.typeName) token token (some nested)) u ∧
      more = after token rest := by
  unfold turn at h
  simp only [hs] at h
  obtain ⟨_, v, hopen, h₁⟩ := bind_ok.mp h
  obtain ⟨span, _, hof, h₂⟩ := bind_ok.mp h₁
  obtain ⟨hspan, rfl⟩ := ofExcept_ok.mp hof
  obtain ⟨nested, _, hinner, h₃⟩ := bind_ok.mp h₂
  obtain ⟨hnested, rfl⟩ := inner_ok hinner
  obtain ⟨_, v', hplace, h₄⟩ := bind_ok.mp h₃
  obtain ⟨rfl, rfl⟩ := pure_ok.mp h₄
  rw [part_of_openField hopen] at hnested
  exact ⟨span, nested, hspan, hnested, place_ok hopen hplace, (after_of_span hs (by simp) hspan).symm⟩

/-- A group has the plan of a walk over its elements, and is recorded behind the closed block. -/
theorem turn_group_ok (hs : token.signal = .opens .group) {more : List Token}
    (h : turn token rest w = .ok more u) :
    w.Turn token rest u ∧ HasEnd token rest ∧ more = after token rest := by
  unfold turn at h
  simp only [hs] at h
  obtain ⟨_, v, hclose, h₁⟩ := bind_ok.mp h
  obtain ⟨span, _, hof, h₂⟩ := bind_ok.mp h₁
  obtain ⟨hspan, rfl⟩ := ofExcept_ok.mp hof
  obtain ⟨⟨blockLength, numInGroup⟩, _, hleading, h₃⟩ := bind_ok.mp h₂
  obtain ⟨rfl, -⟩ := leading_ok hleading
  obtain ⟨dimensions, _, hof, h₄⟩ := bind_ok.mp h₃
  obtain ⟨hdimensions, rfl⟩ := ofExcept_ok.mp hof
  obtain ⟨element, _, hinner, h₅⟩ := bind_ok.mp h₄
  obtain ⟨helement, rfl⟩ := inner_ok hinner
  obtain ⟨_, _, hpush, h₆⟩ := bind_ok.mp h₅
  obtain rfl := push_ok.mp hpush
  obtain ⟨rfl, rfl⟩ := pure_ok.mp h₆
  exact ⟨.group hs (close_ok hclose) hspan hdimensions helement, hasEnd_of_span hspan,
    (after_of_span hs (by simp) hspan).symm⟩

/-- **What a turn does where nothing fails**, and where the walk goes on behind it. -/
theorem turn_ok {more : List Token} (h : turn token rest w = .ok more u) :
    w.Turn token rest u ∧ HasEnd token rest ∧ more = after token rest := by
  have hturn := h
  unfold turn at h
  cases hs : token.signal with
  | closes construct =>
    -- Nothing is passed over where nothing is opened.
    have hend : HasEnd token rest := hasEnd_of_not_opens (by simp [hs])
    have hafter : rest = after token rest := by rw [after, hs]
    cases construct with
    | message =>
      simp only [hs] at h
      obtain ⟨_, _, hclose, h⟩ := bind_ok.mp h
      obtain ⟨_, _, hpush, h⟩ := bind_ok.mp h
      obtain rfl := push_ok.mp hpush
      obtain ⟨rfl, rfl⟩ := pure_ok.mp h
      exact ⟨.messageCloses hs (close_ok hclose), hend, hafter⟩
    | group =>
      simp only [hs] at h
      obtain ⟨_, _, hclose, h⟩ := bind_ok.mp h
      obtain ⟨rfl, rfl⟩ := pure_ok.mp h
      exact ⟨.groupCloses hs (close_ok hclose), hend, hafter⟩
    | _ =>
      simp only [hs] at h
      obtain ⟨rfl, rfl⟩ := pure_ok.mp h
      exact ⟨.passes (by simp [hs]) (by rw [stopAt, hs]), hend, hafter⟩
  | opens construct =>
    cases construct with
    | message =>
      simp only [hs] at h
      obtain ⟨_, _, hpush, h⟩ := bind_ok.mp h
      obtain rfl := push_ok.mp hpush
      obtain ⟨rfl, rfl⟩ := pure_ok.mp h
      exact ⟨.messageOpens hs, hasEnd_of_message hs, by rw [after, hs]⟩
    | field =>
      simp only [hs] at h
      cases rest with
      | nil => exact (fail_ok.mp h).elim
      | cons type rest =>
        have hfield : stopAt token (type :: rest) = some (.field token type) := by
          rw [stopAt, hs]
          rfl
        obtain ⟨step, v, hrecords, hplaces, h⟩ := recordField_ok h
        obtain ⟨rfl, hbehind⟩ := passOver_ok hs (by simp) h
        exact ⟨.field hfield hrecords hplaces, hbehind⟩
    | enumeration | choiceSet =>
      simp only [hs] at h
      have hfield : stopAt token rest = some (.field token token) := by rw [stopAt, hs]
      obtain ⟨step, v, hrecords, hplaces, h⟩ := recordField_ok h
      obtain ⟨rfl, hbehind⟩ := passOver_ok hs (by simp) h
      exact ⟨.field hfield hrecords hplaces, hbehind⟩
    | composite =>
      have hfield : stopAt token rest = some (.field token token) := by rw [stopAt, hs]
      obtain ⟨span, nested, hspan, hnested, hplaces, hmore⟩ := turn_composite_ok hs hturn
      exact ⟨.field hfield (.nested hs rfl hnested) hplaces, hasEnd_of_span hspan, hmore⟩
    | group => exact turn_group_ok hs hturn
    | varData =>
      simp only [hs] at h
      obtain ⟨_, v, hclose, h₁⟩ := bind_ok.mp h
      obtain ⟨⟨length, data⟩, _, hleading, h₂⟩ := bind_ok.mp h₁
      obtain ⟨rfl, -⟩ := leading_ok hleading
      obtain ⟨_, _, hpush, h₃⟩ := bind_ok.mp h₂
      obtain rfl := push_ok.mp hpush
      obtain ⟨rfl, hbehind⟩ := passOver_ok hs (by simp) h₃
      exact ⟨.varData hs (close_ok hclose), hbehind⟩
  | encoding =>
    simp only [hs] at h
    have hfield : stopAt token rest = some (.field token token) := by rw [stopAt, hs]
    obtain ⟨_, _, hopen, h₁⟩ := bind_ok.mp h
    obtain ⟨_, v, hplace, h₂⟩ := bind_ok.mp h₁
    obtain ⟨rfl, rfl⟩ := pure_ok.mp h₂
    exact ⟨.field hfield (.primitive hs) (place_ok hopen hplace), hasEnd_of_not_opens (by simp [hs]),
      by rw [after, hs]⟩
  | _ =>
    simp only [hs] at h
    obtain ⟨rfl, rfl⟩ := pure_ok.mp h
    exact ⟨.passes (by simp [hs]) (by rw [stopAt, hs]), hasEnd_of_not_opens (by simp [hs]),
      by rw [after, hs]⟩

/-- A walk that succeeds makes its first turn and goes on behind it. -/
theorem tokens_cons_ok (h : tokens (token :: rest) w = .ok () u) :
    ∃ v, w.Turn token rest v ∧ HasEnd token rest ∧ tokens (after token rest) v = .ok () u := by
  rw [tokens_cons] at h
  obtain ⟨more, v, hrun, hrest⟩ := bind_ok.mp h
  obtain ⟨hturn, hend, rfl⟩ := turn_ok hrun
  exact ⟨v, hturn, hend, hrest⟩

end

/-! ## Whole walks -/

/-- **Induction over the turns of a walk.** What holds of the tokens and the walker at the start, and
is kept by every turn, holds of the walker at the end, where no tokens are left. -/
theorem tokens_induction {P : List Token → Walker → Prop}
    (hturn : ∀ {token : Token} {rest : List Token} {w u : Walker},
      P (token :: rest) w → w.Turn token rest u → P (after token rest) u)
    {ts : List Token} {w u : Walker} (hstart : P ts w) (h : tokens ts w = .ok () u) : P [] u := by
  induction ts using stops.induct generalizing w with
  | case1 =>
    rw [tokens] at h
    obtain ⟨-, rfl⟩ := pure_ok.mp h
    exact hstart
  | case2 token rest ih =>
    obtain ⟨v, hfirst, -, hrest⟩ := tokens_cons_ok h
    exact ih (hturn hstart hfirst) hrest

/-- A walk appends to the steps of the plan, and leaves the rest of the plan as it is. -/
theorem tokens_extends {ts : List Token} {w u : Walker} (h : tokens ts w = .ok () u) :
    ∃ more, u.plan = (w.extend more).plan := by
  refine tokens_induction (P := fun _ v => ∃ more, v.plan = (w.extend more).plan) ?_ ?_ h
  · rintro _ _ _ _ ⟨more, hmore⟩ hturn
    obtain ⟨steps, hsteps⟩ := hturn.extends
    refine ⟨more ++ steps, ?_⟩
    rw [hsteps, ← Walker.extend_extend, Walker.extend, hmore]
    rfl
  · exact ⟨[], by rw [Walker.extend_nil]⟩

/-- A plan is what the walker holds when the block is closed at last. -/
theorem fresh_ok {plan result : Plan} {walk : Walk Unit} (h : fresh plan walk = .ok result) :
    ∃ u v : Walker, walk { plan } = .ok () u ∧ u.Closes v ∧
      result = { v.plan with consumed := v.offset } := by
  unfold fresh at h
  split at h
  · rename_i found _ hrun
    obtain ⟨_, u, hwalk, h₁⟩ := bind_ok.mp hrun
    obtain ⟨_, v, hclose, h₂⟩ := bind_ok.mp h₁
    obtain ⟨_, _, hmodify, h₃⟩ := bind_ok.mp h₂
    obtain rfl := modify_ok.mp hmodify
    obtain ⟨_, _, hget, h₄⟩ := bind_ok.mp h₃
    obtain ⟨rfl, rfl⟩ := get_ok.mp hget
    obtain ⟨rfl, -⟩ := pure_ok.mp h₄
    exact ⟨u, v, hwalk, close_ok hclose, (Except.ok.inj h).symm⟩
  · cases h

end Walk

end SimpleBinary
