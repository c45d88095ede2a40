import SimpleBinary.Proofs.Forest.Document

/-!
Walks that agree apart from counts.

The walk over a forest does not read counts. On two forests that differ in counts only, walkers stay
alike (`Walker.Alike`), and where all numbers of the tokens are there, nothing but an inconsistency can
stop them. So the plan of a message without counts is the one that the walk over its forest makes
(`Plan.samePlan_uncounted`).
-/

set_option autoImplicit false

namespace SimpleBinary

open Node (openToken closeToken tokensAll sizeAll)

/-- Two walkers that differ in counts only, and have the numbers that closing the block needs. -/
structure Walker.Alike (w v : Walker) : Prop where
  plan : w.plan.uncounted = v.plan.uncounted
  offset : w.offset = v.offset
  isClosed : w.isClosed = v.isClosed
  ends : w.ends = v.ends
  declared : w.plan.blockLength.isSome
  dated : w.ends.Dated

namespace Walk

/-- Two outcomes that agree: results that are alike with walkers that are alike, or one inconsistency. -/
inductive Agree {α : Type} (alike : α → α → Prop) :
    EStateM.Result Fault Walker α → EStateM.Result Fault Walker α → Prop
  | ok {a b : α} {w v : Walker} : alike a b → w.Alike v → Agree alike (.ok a w) (.ok b v)
  | error {cause : Inconsistency} {w v : Walker} :
      Agree alike (.error (.inconsistent cause) w) (.error (.inconsistent cause) v)

/-- Two walks that agree from walkers that are alike. -/
def Carries {α : Type} (alike : α → α → Prop) (x y : Walk α) : Prop :=
  ∀ w v : Walker, w.Alike v → Agree alike (x w) (y v)

namespace Carries

variable {α β : Type} {alike : α → α → Prop} {similar : β → β → Prop}

theorem bind {x y : Walk α} {f g : α → Walk β} (h : Carries alike x y)
    (hf : ∀ a b, alike a b → Carries similar (f a) (g b)) :
    Carries similar (x >>= f) (y >>= g) := by
  intro w v hwv
  show Agree similar (EStateM.bind x f w) (EStateM.bind y g v)
  have := h w v hwv
  unfold EStateM.bind
  cases hx : x w with
  | ok a w' =>
    cases hy : y v with
    | ok b v' =>
      rw [hx, hy] at this
      cases this with
      | ok hab hwv' => exact hf a b hab w' v' hwv'
    | error => rw [hx, hy] at this; cases this
  | error =>
    cases hy : y v with
    | ok => rw [hx, hy] at this; cases this
    | error =>
      rw [hx, hy] at this
      cases this with
      | error => exact .error

theorem pure {a b : α} (h : alike a b) : Carries alike (pure a) (pure b) :=
  fun _ _ hwv => .ok h hwv

theorem fail (cause : Inconsistency) : Carries alike (fail cause) (fail cause) :=
  fun _ _ _ => .error

theorem get : Carries Walker.Alike get get :=
  fun _ _ hwv => .ok hwv hwv

theorem modify {f g : Walker → Walker} (h : ∀ w v, w.Alike v → (f w).Alike (g v)) :
    Carries Eq (modify f) (modify g) :=
  fun w v hwv => .ok rfl (h w v hwv)

theorem push {s t : Step} (h : s.uncounted = t.uncounted) : Carries Eq (push s) (push t) := by
  refine .modify fun w v hwv => ⟨?_, hwv.offset, hwv.isClosed, hwv.ends, hwv.declared, hwv.dated⟩
  obtain ⟨h₁, h₂, h₃, h₄, h₅, h₆, h₇⟩ := Plan.uncounted_eq_iff.mp hwv.plan
  refine Plan.uncounted_eq_iff.mpr ⟨h₁, h₂, h₃, h₄, h₅, ?_, h₇⟩
  simp only [Step.uncountedAll_append, h₆, Step.uncountedAll, h]

section

variable {field other type kind : Token}

theorem pad (field type : Token) : Carries Eq (pad field type) (pad field type) := by
  unfold Walk.pad
  split
  · exact .pure rfl
  · refine .bind .get fun w v hwv => ?_
    have hname := (Plan.uncounted_eq_iff.mp hwv.plan).1
    simp only [hwv.offset, hname]
    split
    · exact .fail _
    · split
      · exact .pure rfl
      · exact .bind (.push rfl) fun _ _ _ => .pure rfl

/-- Padding does not read counts. -/
theorem openField (hfield : field.uncounted = other.uncounted)
    (htype : type.uncounted = kind.uncounted) :
    Carries Eq (openField field type) (openField other kind) := by
  have heq (a b : Token) : Walk.openField a b = Walk.openField a.uncounted b.uncounted := rfl
  rw [heq field, heq other, hfield, htype]
  unfold Walk.openField
  split
  · exact .pure rfl
  · exact pad _ _

/-- Placing a field does not read counts. -/
theorem place (hfield : field.uncounted = other.uncounted) (htype : type.uncounted = kind.uncounted)
    (hversion : field.version.isSome) (hlength : type.encodedLength.isSome) (gap : Int) {s t : Step}
    (hstep : s.uncounted = t.uncounted) :
    Carries Eq (place field type gap s) (place other kind gap t) := by
  have heq (a b : Token) (s : Step) :
      Walk.place a b gap s = Walk.place a.uncounted b.uncounted gap s := rfl
  have hversion' : field.uncounted.version.isSome := hversion
  have hlength' : type.uncounted.encodedLength.isSome := hlength
  rw [heq field, heq other, ← hfield, ← htype]
  generalize field.uncounted = field at *
  generalize type.uncounted = type at *
  obtain ⟨length, hlength⟩ := Option.isSome_iff_exists.mp hlength'
  unfold Walk.place
  refine .bind (.push hstep) fun _ _ _ => ?_
  split
  · simp only [hlength]
    refine .modify fun w v hwv => ⟨hwv.plan, ?_, hwv.isClosed, ?_, hwv.declared, ?_⟩
    · simp only [hwv.offset]
    · simp only [hwv.offset, hwv.ends]
    · exact FieldEnds.dated_record.mpr ⟨Option.isSome_iff_exists.mp hversion', hwv.dated⟩
  · exact .pure rfl

theorem fieldStep (hfield : field.uncounted = other.uncounted)
    (htype : type.uncounted = kind.uncounted) :
    Carries (fun s t => s.uncounted = t.uncounted) (fieldStep field type) (fieldStep other kind) := by
  have hsignal : type.signal = kind.signal := Token.congr_uncounted Token.signal htype
  have hname : field.name = other.name := Token.congr_uncounted Token.name hfield
  have htypeName : type.typeName = kind.typeName := Token.congr_uncounted Token.typeName htype
  unfold Walk.fieldStep
  rw [hsignal, hname, htypeName]
  split
  · exact .pure (by simp only [Step.uncounted, hfield, htype])
  · exact .pure (by simp only [Step.uncounted, hfield, htype])
  · exact .pure (by simp only [Step.uncounted, hfield, htype])
  · exact .pure (by simp only [Step.uncounted, hfield, htype])
  · exact .fail _

/-- A field of the fixed block, apart from counts. -/
theorem fixedField (hfield : field.uncounted = other.uncounted)
    (htype : type.uncounted = kind.uncounted) (hversion : field.version.isSome)
    (hlength : type.encodedLength.isSome) :
    Carries Eq
      (do let gap ← Walk.openField field type
          Walk.place field type gap (← Walk.fieldStep field type))
      (do let gap ← Walk.openField other kind
          Walk.place other kind gap (← Walk.fieldStep other kind)) := by
  refine .bind (.openField hfield htype) fun gap _ hgap => .bind (.fieldStep hfield htype) ?_
  intro s t hstep
  rw [← hgap]
  exact .place hfield htype hversion hlength gap hstep

end

theorem knownLengths {ends : FieldEnds} (h : ends.Dated) :
    Carries Eq (ofExcept ends.knownLengths) (ofExcept ends.knownLengths) := by
  obtain ⟨known, hknown⟩ := FieldEnds.exists_knownLengths h
  rw [hknown]
  exact .pure rfl

theorem close : Carries Eq close close := by
  unfold Walk.close
  refine .bind .get fun w v hwv => ?_
  rw [hwv.isClosed]
  split
  · refine .bind (.modify fun w v hwv => ⟨hwv.plan, hwv.offset, rfl, hwv.ends, hwv.declared, hwv.dated⟩)
      fun _ _ _ => .bind .get fun w v hwv => ?_
    obtain ⟨-, -, hlength, hextensible, -⟩ := Plan.uncounted_eq_iff.mp hwv.plan
    have hskip : Carries Eq
        (if w.plan.isExtensible then do
          Walk.push (.extensionSkip (← ofExcept w.ends.knownLengths)) else Pure.pure () : Walk Unit)
        (if w.plan.isExtensible then do
          Walk.push (.extensionSkip (← ofExcept w.ends.knownLengths)) else Pure.pure ()) := by
      split
      · refine .bind (.knownLengths hwv.dated) fun known _ hknown => ?_
        rw [← hknown]
        exact .push rfl
      · exact .pure rfl
    obtain ⟨length, hsome⟩ := Option.isSome_iff_exists.mp hwv.declared
    -- The lengths, and how far the walks have come, are the same, so the same steps close both blocks.
    rw [← hlength, ← hextensible, ← hwv.offset, ← hwv.ends, hsome]
    dsimp only
    split
    · exact .bind (.push rfl) fun _ _ _ => hskip
    · exact hskip
  · exact .pure rfl

theorem finish : Carries (fun p q => p.uncounted = q.uncounted) finish finish := by
  unfold Walk.finish
  refine .bind .close fun _ _ _ => .bind (.modify fun w v hwv =>
    ⟨?_, hwv.offset, hwv.isClosed, hwv.ends, hwv.declared, hwv.dated⟩)
      fun _ _ _ => .bind .get fun w v hwv => .pure hwv.plan
  obtain ⟨h₁, h₂, h₃, h₄, h₅, h₆, -⟩ := Plan.uncounted_eq_iff.mp hwv.plan
  exact Plan.uncounted_eq_iff.mpr ⟨h₁, h₂, h₃, h₄, h₅, h₆, hwv.offset⟩

end Carries

/-- Two plans that are the same apart from counts, or one inconsistency. -/
def SamePlan (x y : Except Fault Plan) : Prop :=
  (∃ p q, x = .ok p ∧ y = .ok q ∧ p.uncounted = q.uncounted) ∨
    ∃ cause, x = .error (.inconsistent cause) ∧ y = .error (.inconsistent cause)

/-- Walks from the start that agree make the same plan. -/
theorem Carries.fresh {blank other : Plan} {x y : Walk Unit} (h : Carries Eq x y)
    (hblank : blank.uncounted = other.uncounted) (hdeclared : blank.blockLength.isSome) :
    SamePlan (fresh blank x) (fresh other y) := by
  have hstart : Walker.Alike { plan := blank } { plan := other } :=
    ⟨hblank, rfl, rfl, rfl, hdeclared, by simp [FieldEnds.Dated]⟩
  have hagree := (h.bind fun _ _ _ => .finish) _ _ hstart
  unfold Walk.fresh EStateM.run
  generalize (x >>= fun _ => Walk.finish) { plan := blank } = first at hagree ⊢
  generalize (y >>= fun _ => Walk.finish) { plan := other } = second at hagree ⊢
  cases hagree with
  | ok hplan => exact .inl ⟨_, _, rfl, rfl, hplan⟩
  | error => exact .inr ⟨_, rfl, rfl⟩

theorem Carries.inner {token other : Token} {x y : Walk Unit} (kind : EntityKind)
    (isExtensible : Bool) (h : Carries Eq x y) (htoken : token.uncounted = other.uncounted)
    (hlength : token.encodedLength.isSome) :
    Carries (fun p q => p.uncounted = q.uncounted) (inner kind isExtensible token x)
      (inner kind isExtensible other y) := by
  refine .bind .get fun w v hwv => ?_
  have hsame : SamePlan (Walk.fresh (w.part kind isExtensible token) x)
      (Walk.fresh (v.part kind isExtensible other) y) := by
    refine h.fresh (Plan.uncounted_eq_iff.mpr ⟨?_, rfl, ?_, rfl, ?_, rfl, rfl⟩) hlength
    · rw [Walker.part, Walker.part, (Plan.uncounted_eq_iff.mp hwv.plan).1,
        Token.congr_uncounted Token.name htoken]
    · exact Token.congr_uncounted Token.encodedLength htoken
    · exact congrArg some htoken
  show Carries _ (ofExcept (Walk.fresh (w.part kind isExtensible token) x))
    (ofExcept (Walk.fresh (v.part kind isExtensible other) y))
  rcases hsame with ⟨p, q, hp, hq, hpq⟩ | ⟨cause, hx, hy⟩
  · rw [hp, hq]
    exact .pure hpq
  · rw [hx, hy]
    exact .fail cause

/-- What leads a group or variable data, apart from counts. -/
theorem Carries.leading (cause : Inconsistency) {ts us : List Token}
    (hmap : ts.map Token.uncounted = us.map Token.uncounted)
    (hleads : 3 ≤ ts.length ∨ ∃ token rest, ts = token :: rest ∧ token.signal ≠ .opens .composite) :
    Carries (fun a b => a.1.uncounted = b.1.uncounted ∧ a.2.uncounted = b.2.uncounted)
      (leading cause ts) (leading cause us) := by
  cases ts with
  | nil => simp at hleads
  | cons token rest =>
    obtain ⟨other, others, rfl, hother, hothers⟩ := List.map_eq_cons_iff.mp hmap.symm
    have hsignal : other.signal = token.signal := Token.congr_uncounted Token.signal hother
    by_cases hcomposite : token.signal = .opens .composite
    · have hlong : 2 ≤ rest.length := by
        rcases hleads with hlong | ⟨_, _, htokens, hne⟩
        · simpa using hlong
        · cases htokens
          exact absurd hcomposite hne
      obtain ⟨first, rest, rfl⟩ := List.exists_cons_of_length_pos (l := rest) (by omega)
      rw [List.length_cons] at hlong
      obtain ⟨second, rest, rfl⟩ := List.exists_cons_of_length_pos (l := rest) (by omega)
      obtain ⟨first', others, rfl, hfirst, hothers⟩ := List.map_eq_cons_iff.mp hothers
      obtain ⟨second', others, rfl, hsecond, -⟩ := List.map_eq_cons_iff.mp hothers
      simp only [Walk.leading, hsignal, hcomposite, beq_self_eq_true, if_true]
      exact .pure ⟨hfirst.symm, hsecond.symm⟩
    · rw [leading_of_ne cause hcomposite, leading_of_ne cause (by rwa [hsignal])]
      exact .fail cause

theorem head_congr {α β : Type} {f : α → β} {as bs : List α} (h : as.map f = bs.map f) (ha : as ≠ [])
    (hb : bs ≠ []) : f (as.head ha) = f (bs.head hb) := by
  rw [← List.head_map (f := f) (by simpa using ha), ← List.head_map (f := f) (by simpa using hb)]
  simp only [h]

mutual

theorem carries_node : ∀ n : Node, (∀ t ∈ n.tokens, t.Numbered) → Carries Eq (node n) (node n.uncounted)
  | .leaf .encoding entry, h => by
    have hnumbered := h _ (List.mem_singleton.mpr rfl)
    rw [Node.uncounted, node, node]
    refine .bind (.openField rfl rfl) fun gap _ hgap => ?_
    rw [← hgap]
    exact .place rfl rfl hnumbered.version hnumbered.encodedLength gap rfl
  | .leaf .validValue _, _ => .pure rfl
  | .leaf .choice _, _ => .pure rfl
  | .span .message opening parts closing, h => by
    rw [Node.uncounted, node, node]
    refine .bind (.push rfl) fun _ _ _ => .bind (carries_nodes parts ?_) fun _ _ _ =>
      .bind .close fun _ _ _ => .push rfl
    intro t ht
    exact h t (by simp [Node.tokens, ht])
  | .span .field opening parts closing, h => by
    have htoken := (Node.openToken_uncounted .field opening parts (Node.uncountedAll parts)).symm
    have hinside := Node.inside_uncounted .field parts closing
    -- A field without a type takes the token that closes it for one.
    have hne : tokensAll parts ++ [closeToken .field closing] ≠ [] := by simp
    rw [Node.uncounted, node, node]
    refine .fixedField htoken (head_congr hinside hne _) (h _ (List.mem_cons_self ..)).version ?_
    exact (h _ (List.mem_cons_of_mem _ (List.head_mem hne))).encodedLength
  | .span .enumeration opening parts closing, h | .span .choiceSet opening parts closing, h => by
    have htoken (construct : Construct) :=
      (Node.openToken_uncounted construct opening parts (Node.uncountedAll parts)).symm
    have hnumbered := h _ (List.mem_cons_self ..)
    rw [Node.uncounted, node, node]
    exact .fixedField (htoken _) (htoken _) hnumbered.version hnumbered.encodedLength
  | .span .composite opening parts closing, h => by
    have htoken := (Node.openToken_uncounted .composite opening parts (Node.uncountedAll parts)).symm
    have hnumbered := h _ (List.mem_cons_self ..)
    rw [Node.uncounted, node, node]
    refine .bind (.openField htoken htoken) fun gap _ hgap => ?_
    refine .bind (.inner _ _ (carries_nodes parts ?_) htoken hnumbered.encodedLength) ?_
    · intro t ht
      exact h t (by simp [Node.tokens, ht])
    · intro p q hpq
      rw [← hgap, ← (Plan.uncounted_eq_iff.mp hpq).1]
      refine .place htoken htoken hnumbered.version hnumbered.encodedLength gap ?_
      simp only [Step.uncounted, htoken, hpq]
  | .span .group opening parts closing, h => by
    have htoken := (Node.openToken_uncounted .group opening parts (Node.uncountedAll parts)).symm
    have hname := Token.congr_uncounted Token.name htoken
    have hnumbered := h _ (List.mem_cons_self ..)
    rw [Node.uncounted, node, node]
    refine .bind .close fun _ _ _ => ?_
    rw [← hname]
    refine .bind (.leading _ (Node.inside_uncounted ..) (leads_inside ..)) ?_
    rintro ⟨a₁, a₂⟩ ⟨b₁, b₂⟩ ⟨h₁, h₂⟩
    -- The walks inside go over what is behind the dimensions, and close the block of the element.
    refine .bind (.inner _ _ (.bind (carries_behind parts ?_) fun _ _ _ => .close) htoken
      hnumbered.encodedLength) ?_
    · intro t ht
      exact h t (by simp [Node.tokens, ht])
    · intro p q hpq
      exact .push (by simp only [Step.uncounted, htoken, h₁, h₂, hpq])
  | .span .varData opening parts closing, h => by
    rw [Node.uncounted, node, node]
    have htoken := (Node.openToken_uncounted .varData opening parts (Node.uncountedAll parts)).symm
    have hname := Token.congr_uncounted Token.name htoken
    refine .bind .close fun _ _ _ => ?_
    rw [← hname]
    refine .bind (.leading _ (Node.inside_uncounted ..) (leads_inside ..)) ?_
    rintro ⟨a₁, a₂⟩ ⟨b₁, b₂⟩ ⟨h₁, h₂⟩
    exact .push (by simp only [Step.uncounted, htoken, h₁, h₂])

theorem carries_nodes : ∀ forest : List Node, (∀ t ∈ tokensAll forest, t.Numbered) →
    Carries Eq (nodes forest) (nodes (Node.uncountedAll forest))
  | [], _ => .pure rfl
  | n :: rest, h => by
    rw [Node.uncountedAll, nodes, nodes]
    exact .bind (carries_node n fun t ht => h t (List.mem_append_left _ ht)) fun _ _ _ =>
      carries_nodes rest fun t ht => h t (List.mem_append_right _ ht)

theorem carries_behind : ∀ parts : List Node, (∀ t ∈ tokensAll parts, t.Numbered) →
    Carries Eq (behind parts) (behind (Node.uncountedAll parts))
  | [], _ => .pure rfl
  | _ :: rest, h => carries_nodes rest fun t ht => h t (List.mem_append_right _ ht)

end

end Walk

/-! ## Messages -/

namespace Plan

/-- The plan of a message before anything is walked. -/
def blankMessage (typeName : String) (token : Token) : Plan where
  typeName
  kind := .message
  blockLength := token.encodedLength
  isExtensible := true
  token := some token

theorem ofMessage_node (typeName : String) (opening closing : Entry) (parts : List Node) :
    ofMessage typeName (Node.span .message opening parts closing).tokens =
      Walk.fresh (blankMessage typeName (openToken .message opening parts))
        (Walk.tokens (Node.span .message opening parts closing).tokens) :=
  rfl

theorem blankMessage_uncounted (typeName : String) {token other : Token}
    (h : token.uncounted = other.uncounted) :
    (blankMessage typeName token).uncounted = (blankMessage typeName other).uncounted :=
  uncounted_eq_iff.mpr
    ⟨rfl, rfl, Token.congr_uncounted Token.encodedLength h, rfl, congrArg some h, rfl, rfl⟩

/-- The plan of a message without counts is the one that the walk over the tree makes. -/
theorem samePlan_uncounted (typeName : String) {opening closing : Entry} {parts : List Node}
    (hnumbered : ∀ t ∈ (Node.span .message opening parts closing).tokens, t.Numbered) :
    Walk.SamePlan
      (Walk.fresh (blankMessage typeName (openToken .message opening parts))
        (Walk.node (.span .message opening parts closing)))
      (ofMessage typeName (Node.span .message opening parts closing).uncounted.tokens) := by
  have hderived := Walk.tokens_of_derived_node
    (Node.derived_uncounted (.span .message opening parts closing))
  have hopening := Node.openToken_uncounted .message opening parts (Node.uncountedAll parts)
  rw [Node.uncounted, ofMessage_node, ← Node.uncounted, hderived]
  exact (Walk.carries_node _ hnumbered).fresh (blankMessage_uncounted typeName hopening.symm)
    (hnumbered _ (List.mem_cons_self ..)).encodedLength

end Plan

end SimpleBinary
