import SimpleBinary.Package
import SimpleBinary.Proofs.Class.Faults
import SimpleBinary.Proofs.Forest.Brackets
import SimpleBinary.Proofs.Forest.Member
import SimpleBinary.Proofs.Walk.Moves

/-!
How walks cannot go on.

A walk looks at two places for tokens that need not be there: behind the token of a group or of variable
data, and there behind the token that opens a composite. In a well-bracketed list a token is missing at the
first place only where the list is cut off behind that token, and at the second only where the composite has
too few members (`Led`). Both hold of all the ranges that a walk goes on with, so a walk over such tokens
fails only where they do not agree (`Walk.runsWithin_tokens`), and the classes of its plan lack nothing
(`Plan.failsWithin_ofMessage`, `Plan.failsWithin_ofComposite`).
-/

set_option autoImplicit false

namespace SimpleBinary

/-! ## Tokens that are read ahead -/

/-- Whether a token is one of those that a walk reads ahead behind. -/
def Token.ReadsAhead (t : Token) : Prop :=
  t.signal = .opens .group ∨ t.signal = .opens .varData

theorem Token.ReadsAhead.opens {t : Token} (h : t.ReadsAhead) : ∃ construct, t.signal = .opens construct := by
  obtain h | h := h
  · exact ⟨_, h⟩
  · exact ⟨_, h⟩

/-- What may stand behind a token that a walk reads ahead behind: nothing that closes a composite, and two
encodings behind what opens one. -/
inductive Leads : List Token → Prop
  | nothing : Leads []
  | composite {opening first second : Token} {rest : List Token} :
      opening.signal = .opens .composite → first.signal = .encoding → second.signal = .encoding →
      Leads (opening :: first :: second :: rest)
  | other {token : Token} {rest : List Token} : token.signal ≠ .opens .composite →
      token.signal ≠ .closes .composite → Leads (token :: rest)

/-- Whether a walk over tokens finds all that it reads ahead. The range of a group ends with the token that
closes it, while that of variable data may be cut off. -/
structure Led (ts : List Token) : Prop where
  leads : ∀ {token rest}, token :: rest <:+ ts → token.ReadsAhead → Leads rest
  follows : ∀ {token rest}, token :: rest <:+ ts → token.signal = .opens .varData → rest ≠ []

section

variable {ts front back rest : List Token} {token last : Token} {construct : Construct}

/-- Tokens up to one that closes a construct: that one is no encoding. -/
theorem Leads.upTo (h : Leads (front ++ last :: back)) (hlast : last.signal = .closes construct) :
    Leads (front ++ [last]) := by
  have hopens : last.signal ≠ .opens .composite := by simp [hlast]
  have hencoding : last.signal ≠ .encoding := by simp [hlast]
  rcases front with _ | ⟨a, _ | ⟨b, _ | ⟨c, front⟩⟩⟩
  · cases h with
    | composite hs => exact absurd hs hopens
    | other hopens hcloses => exact .other hopens hcloses
  · cases h with
    | composite _ hs => exact absurd hs hencoding
    | other hopens hcloses => exact .other hopens hcloses
  · cases h with
    | composite _ _ hs => exact absurd hs hencoding
    | other hopens hcloses => exact .other hopens hcloses
  · cases h with
    | composite hs hfirst hsecond => exact .composite hs hfirst hsecond
    | other hopens hcloses => exact .other hopens hcloses

/-- Tokens without the last one, which is not the second member of a composite. -/
theorem Leads.dropLast (h : Leads (front ++ [last]))
    (hlast : ∀ opening first, front = [opening, first] → first.signal = .encoding →
      last.signal = .encoding → opening.signal ≠ .opens .composite) : Leads front := by
  rcases front with _ | ⟨a, _ | ⟨b, _ | ⟨c, front⟩⟩⟩
  · exact .nothing
  · cases h with
    | other hopens hcloses => exact .other hopens hcloses
  · cases h with
    | composite hs hfirst hsecond => exact absurd hs (hlast a b rfl hfirst hsecond)
    | other hopens hcloses => exact .other hopens hcloses
  · cases h with
    | composite hs hfirst hsecond => exact .composite hs hfirst hsecond
    | other hopens hcloses => exact .other hopens hcloses

namespace Led

theorem suffix (h : Led ts) (hback : back <:+ ts) : Led back where
  leads hsuffix := h.leads (hsuffix.trans hback)
  follows hsuffix := h.follows (hsuffix.trans hback)

/-- The tokens up to one that closes a construct. -/
theorem upTo (h : Led (front ++ last :: back)) (hlast : last.signal = .closes construct) :
    Led (front ++ [last]) := by
  -- What stands behind a token that opens something ends with the last one, and goes on in the whole list.
  have hbehind {token : Token} {rest : List Token} (hsuffix : token :: rest <:+ front ++ [last])
      (htoken : ∃ c, token.signal = .opens c) :
      ∃ inside, rest = inside ++ [last] ∧ token :: (inside ++ last :: back) <:+ front ++ last :: back := by
    obtain hsuffix | ⟨inside, ⟨before, rfl⟩, rfl⟩ := suffix_append_cases hsuffix
    · obtain rfl := List.mem_singleton.mp (hsuffix.subset (List.mem_cons_self ..))
      obtain ⟨c, hc⟩ := htoken
      rw [hlast] at hc
      cases hc
    · exact ⟨inside, rfl, before, by simp⟩
  constructor
  · intro token rest hsuffix htoken
    obtain ⟨inside, rfl, hlonger⟩ := hbehind hsuffix htoken.opens
    exact (h.leads hlonger htoken).upTo hlast
  · intro token rest hsuffix htoken
    obtain ⟨inside, rfl, -⟩ := hbehind hsuffix ⟨_, htoken⟩
    simp

/-- The tokens in front of the last one, where that is neither the second member of a composite nor the end
of variable data. -/
theorem dropLast (h : Led (front ++ [last]))
    (hlast : ∀ opening first, [opening, first] <:+ front → first.signal = .encoding →
      last.signal = .encoding → opening.signal ≠ .opens .composite)
    (hend : ∀ token, [token] <:+ front → token.signal ≠ .opens .varData) : Led front := by
  constructor
  · rintro token rest ⟨before, rfl⟩ htoken
    have hlonger : token :: (rest ++ [last]) <:+ before ++ token :: rest ++ [last] := ⟨before, by simp⟩
    refine (h.leads hlonger htoken).dropLast ?_
    rintro opening first rfl
    exact hlast opening first ⟨before ++ [token], by simp⟩
  · rintro token rest hsuffix htoken rfl
    exact hend token hsuffix htoken

/-- The tokens in front of one that closes a composite. -/
theorem before (h : Led (front ++ last :: back)) (hlast : last.signal = .closes .composite) : Led front := by
  refine (h.upTo hlast).dropLast ?_ ?_
  · intro _ _ _ _ hencoding
    rw [hlast] at hencoding
    cases hencoding
  · rintro token ⟨others, rfl⟩ htoken
    have hsuffix : token :: last :: back <:+ others ++ [token] ++ last :: back := ⟨others, by simp⟩
    cases h.leads hsuffix (.inr htoken) with
    | composite hs => simp [hlast] at hs
    | other _ hcloses => exact hcloses hlast

end Led

/-! ## Well-bracketed lists -/

/-- What opens in a well-bracketed list closes behind it, around a list that is well bracketed. -/
theorem Bracketed.exists_closes {before after : List Signal} {c : Construct}
    (h : Bracketed (before ++ .opens c :: after)) :
    ∃ inside behind, after = inside ++ .closes c :: behind ∧ Bracketed inside := by
  obtain ⟨j, -, hlt, ⟨d, hopens, hcloses⟩, hinside⟩ := h.exists_matches (k := before.length) (c := c) (by simp)
  obtain rfl : c = d := by simpa using hopens
  obtain ⟨n, rfl⟩ : ∃ n, j = before.length + 1 + n := ⟨j - (before.length + 1), by omega⟩
  have hafter : (before ++ .opens c :: after).drop (before.length + 1) = after := by simp
  rw [hafter, Nat.add_sub_cancel_left] at hinside
  rw [← List.getElem?_drop, hafter] at hcloses
  obtain ⟨hn, hcloses⟩ := List.getElem?_eq_some_iff.mp hcloses
  refine ⟨after.take n, after.drop (n + 1), ?_, hinside⟩
  rw [← hcloses, List.getElem_cons_drop, List.take_append_drop]

/-- A list that closes nothing of its own does not begin with a token that closes something. -/
theorem Bracketed.head?_ne_closes {ss : List Signal} (h : Bracketed ss) (c : Construct) :
    ss.head? ≠ some (.closes c) := by
  cases h with
  | nil => simp
  | atom s => simpa using atom_ne_closes s c
  | span => simp

/-- Whether each composite that is read ahead has two encodings as its first members. -/
def HasDimensions (ts : List Token) : Prop :=
  ∀ token opening rest, token :: opening :: rest <:+ ts → token.ReadsAhead →
    opening.signal = .opens .composite →
    ∃ first second others, rest = first :: second :: others ∧ first.signal = .encoding ∧
      second.signal = .encoding

/-- **In a well-bracketed list all is there that is read ahead**, apart from the members of the composites
that are read. -/
theorem Led.of_bracketed (h : Bracketed (ts.map Token.signal)) (hmembers : HasDimensions ts) : Led ts := by
  -- Behind what opens a construct there is what closes it, and first of all nothing that closes another one.
  have hbehind {token : Token} {rest : List Token} (hsuffix : token :: rest <:+ ts) {c : Construct}
      (htoken : token.signal = .opens c) :
      ∃ next others, rest = next :: others ∧ ∀ d, next.signal = .closes d → d = c := by
    obtain ⟨before, rfl⟩ := hsuffix
    rw [List.map_append, List.map_cons, htoken] at h
    obtain ⟨inside, behind, hrest, hinside⟩ := h.exists_closes
    cases rest with
    | nil => simp at hrest
    | cons next others =>
      refine ⟨next, others, rfl, ?_⟩
      intro d hd
      cases inside with
      | nil =>
        have := (List.cons.inj hrest).1
        rw [hd] at this
        exact Signal.closes.inj this
      | cons s inside =>
        have := (List.cons.inj hrest).1
        exact absurd (congrArg some (this.symm.trans hd)) (hinside.head?_ne_closes d)
  constructor
  · intro token rest hsuffix htoken
    obtain ⟨c, hc⟩ := htoken.opens
    obtain ⟨next, others, rfl, hnext⟩ := hbehind hsuffix hc
    by_cases hopens : next.signal = .opens .composite
    · obtain ⟨first, second, others, rfl, hfirst, hsecond⟩ := hmembers token next others hsuffix htoken hopens
      exact .composite hopens hfirst hsecond
    · refine .other hopens ?_
      intro hcloses
      obtain rfl := hnext _ hcloses
      obtain htoken | htoken := htoken <;> simp [htoken] at hc
  · rintro token rest hsuffix htoken rfl
    obtain ⟨_, _, hnil, -⟩ := hbehind hsuffix htoken
    cases hnil

/-- The tokens of a composite, from behind the one that opens it up to the last one, unless that ends
variable data. -/
theorem Led.composite (h : Bracketed (ts.map Token.signal)) (hmembers : HasDimensions ts)
    (hend : ∀ token closing, [token, closing] <:+ ts → token.signal ≠ .opens .varData) :
    Led ts.tail.dropLast := by
  have hled : Led ts.tail := (Led.of_bracketed h hmembers).suffix (List.tail_suffix ts)
  have htail := List.tail_suffix ts
  rcases List.eq_nil_or_concat' ts.tail with hnil | ⟨front, last, hconcat⟩
  · rwa [hnil] at hled ⊢
  rw [hconcat] at hled htail ⊢
  rw [List.dropLast_concat]
  have hsuffix {some : List Token} (hsome : some <:+ front) : some ++ [last] <:+ ts := by
    obtain ⟨before, rfl⟩ := hsome
    exact .trans ⟨before, by simp⟩ htail
  refine hled.dropLast ?_ fun token htoken => hend token last (hsuffix htoken)
  -- Two encodings at the end of the list do not close the composite in front of them.
  intro opening first hfront hfirst hsecond hopening
  obtain ⟨before, rfl⟩ := hsuffix hfront
  rw [List.map_append, List.map_append, List.map_cons, hopening, List.cons_append] at h
  obtain ⟨inside, behind, hrest, -⟩ := h.exists_closes
  have hmem : Signal.closes .composite ∈ [first].map Token.signal ++ [last].map Token.signal := by
    rw [hrest]
    simp
  simp [hfirst, hsecond] at hmem

end

/-! ## Walkers -/

/-- Whether the entity that a walker records can be written with all its steps, unless something is lacking,
and its block can be closed. -/
structure Walker.Ready (lacking : Prop) (e : Edition) (w : Walker) : Prop where
  sound : w.Sound
  begun : some 0 ∈ w.ends.map Prod.fst
  token : w.plan.token.isSome = true
  header : w.plan.kind = .message → lacking ∨ (Plan.headerTypes e.header).isSome = true
  steps : ∀ s ∈ w.plan.steps, s.FailsWithin lacking e

/-- Whether nothing is missing of tokens that are walked over: encodings have a primitive type, and what is
read ahead is there. -/
structure Token.Complete (ts : List Token) : Prop where
  typed : ∀ t ∈ ts, t.signal = .encoding → t.primitive.isSome = true
  led : Led ts

theorem Token.Complete.suffix {ts back : List Token} (h : Complete ts) (hback : back <:+ ts) :
    Complete back where
  typed t ht := h.typed t (hback.subset ht)
  led := h.led.suffix hback

namespace Walker.Ready

variable {lacking : Prop} {e : Edition} {w : Walker}

theorem extend (h : w.Ready lacking e) {step : Step} (hstep : step.FailsWithin lacking e) :
    (w.extend [step]).Ready lacking e where
  sound := ⟨h.sound.hasLength, h.sound.dated⟩
  begun := h.begun
  token := h.token
  header := h.header
  steps := List.forall_mem_append.mpr ⟨h.steps, List.forall_mem_singleton.mpr hstep⟩

theorem advance (h : w.Ready lacking e) {version : Option Int} (hversion : version.isSome = true)
    (reached : Int) : (w.advance version reached).Ready lacking e where
  sound := Moves.sound (.advances reached hversion) h.sound
  begun := Moves.zero_mem (.advances reached hversion) h.begun
  token := h.token
  header := h.header
  steps := h.steps

/-- The versions that a walker has recorded can be told, since there always is one. -/
theorem exists_knownLengths (h : w.Ready lacking e) :
    ∃ known, w.ends.knownLengths = .ok known ∧ known ≠ [] := by
  obtain ⟨known, hknown⟩ := FieldEnds.exists_knownLengths h.sound.dated
  refine ⟨known, hknown, ?_⟩
  rintro rfl
  rw [FieldEnds.knownLengths] at hknown
  obtain ⟨sorted, hsorted, hknown⟩ := except_bind_ok hknown
  cases sorted with
  | cons => cases hknown
  | nil =>
    -- What is sorted is what was recorded.
    have hbegun := h.begun
    rw [← ((FieldEnds.ascending_ok hsorted).1.map Prod.fst).mem_iff] at hbegun
    cases hbegun

end Walker.Ready

/-- A step that adds no fault of its own and holds no plan. -/
theorem Step.failsWithin_gap {lacking : Prop} {e : Edition} (size : Int) (since : Option Int)
    (trailing : Bool) : (Step.gap size since trailing).FailsWithin lacking e where
  bodies _ _ := Codec.failsWithin_gapBodies _ size since trailing
  classes _ h := by cases h

namespace Walk

variable {lacking : Prop} {e : Edition} {α : Type} {wanted : α → Prop}

theorem runsWithin_ofExcept {inOrder : Walker → Prop} {x : Except Fault α} (hx : FailsWithin lacking x)
    (hwanted : ∀ a, x = .ok a → wanted a) : RunsWithin lacking inOrder (ofExcept x) wanted := by
  cases x with
  | ok a => exact runsWithin_pure (hwanted a rfl)
  | error fault => exact runsWithin_throw (hx fault rfl)

theorem runsWithin_push {step : Step} (h : step.FailsWithin lacking e) :
    RunsWithin lacking (Walker.Ready lacking e) (push step) fun _ => True :=
  runsWithin_modify fun _ hw => hw.extend h

theorem runsWithin_openField (field type : Token) :
    RunsWithin lacking (Walker.Ready lacking e) (openField field type) fun _ => True := by
  rw [openField]
  split
  · exact runsWithin_pure trivial
  rw [pad]
  split
  · exact runsWithin_pure trivial
  · refine runsWithin_get.bind fun w _ => ?_
    dsimp only
    split
    · exact runsWithin_throw (.inl rfl)
    · split
      · exact runsWithin_pure trivial
      · exact (runsWithin_push (Step.failsWithin_gap _ _ _)).bind fun _ _ => runsWithin_pure trivial

/-- A field is recorded where its version and the length of its type are there. -/
theorem runsWithin_place {field type : Token} (hfield : field.Numbered) (htype : type.Numbered) (gap : Int)
    {step : Step} (hstep : step.FailsWithin lacking e) :
    RunsWithin lacking (Walker.Ready lacking e) (place field type gap step) fun _ => True := by
  obtain ⟨length, hlength⟩ := Option.isSome_iff_exists.mp htype.encodedLength
  rw [place]
  refine (runsWithin_push hstep).bind fun _ _ => ?_
  split
  · simp only [hlength]
    exact runsWithin_modify fun w hw => hw.advance hfield.version _
  · exact runsWithin_pure trivial

/-- A field of a type leaves a step that can be written. -/
theorem runsWithin_fieldStep (field : Token) {type : Token} (htype : type.IsRead)
    (htyped : type.signal = .encoding → lacking ∨ type.primitive.isSome = true) :
    RunsWithin lacking (Walker.Ready lacking e) (fieldStep field type) fun step =>
      step.FailsWithin lacking e := by
  have htyped' (construct : Construct) :
      (Step.typed construct type.typeName field type none).FailsWithin lacking e :=
    ⟨fun _ _ => Codec.failsWithin_typedBodies construct field none htype.names.typeName, fun _ h => by cases h⟩
  rw [fieldStep.eq_def]
  split
  · rename_i hs
    refine runsWithin_pure ⟨fun _ _ => ?_, fun _ h => by cases h⟩
    exact Codec.failsWithin_primitiveBodies field htype (htyped hs)
  · exact runsWithin_pure (htyped' .enumeration)
  · exact runsWithin_pure (htyped' .choiceSet)
  · exact runsWithin_pure (htyped' .composite)
  · exact runsWithin_throw (.inl rfl)

/-- The block can be closed. -/
theorem runsWithin_close : RunsWithin lacking (Walker.Ready lacking e) close fun _ => True := by
  rw [close]
  refine runsWithin_get.bind fun w _ => ?_
  split
  · refine RunsWithin.bind (runsWithin_modify fun w hw => ?_) fun _ _ => ?_
    · exact ⟨⟨hw.sound.hasLength, hw.sound.dated⟩, hw.begun, hw.token, hw.header, hw.steps⟩
    refine runsWithin_get.bind fun w hw => ?_
    obtain ⟨length, hlength⟩ := Option.isSome_iff_exists.mp hw.sound.hasLength
    obtain ⟨known, hknown, hne⟩ := hw.exists_knownLengths
    -- The lengths that the skip tells are there, since every walker has noted a length for version 0.
    have hskip : RunsWithin lacking (Walker.Ready lacking e)
        (if w.plan.isExtensible = true then do push (.extensionSkip (← ofExcept w.ends.knownLengths))
          else pure ()) fun _ => True := by
      rw [hknown]
      split
      · refine (runsWithin_ofExcept (failsWithin_ok known) fun a ha => Except.ok.inj ha).bind ?_
        rintro _ rfl
        exact runsWithin_push ⟨fun _ _ => Codec.failsWithin_skipBodies hne, fun _ h => by cases h⟩
      · exact runsWithin_pure trivial
    simp only [hlength]
    split
    · exact (runsWithin_push (Step.failsWithin_gap _ _ _)).bind fun _ _ => hskip
    · exact hskip
  · exact runsWithin_pure trivial

/-- What is walked to its end is an entity whose classes lack nothing. -/
theorem runsWithin_finish : RunsWithin lacking (Walker.Ready lacking e) finish fun p =>
    FailsWithin lacking (p.classes e).outcome := by
  rw [finish]
  refine runsWithin_close.bind fun _ _ => ?_
  refine RunsWithin.bind (runsWithin_modify fun w hw => ?_) fun _ _ => ?_
  · exact ⟨⟨hw.sound.hasLength, hw.sound.dated⟩, hw.begun, hw.token, hw.header, hw.steps⟩
  refine runsWithin_get.bind fun w hw => ?_
  exact runsWithin_pure (Plan.failsWithin_classes hw.steps hw.token hw.header)

/-- The classes of a plan that may not be there: both the plan and its classes fail within what may come
up. -/
theorem failsWithin_planClasses {plan : Except Fault Plan} :
    FailsWithin lacking (planClasses e plan).outcome ↔
      FailsWithin lacking plan ∧ ∀ p, plan = .ok p → FailsWithin lacking (p.classes e).outcome := by
  cases plan with
  | ok p =>
    have hclasses : (planClasses e (.ok p)).outcome = (p.classes e).outcome := rfl
    rw [hclasses]
    constructor
    · intro h
      refine ⟨failsWithin_ok p, fun q hq => ?_⟩
      obtain rfl := Except.ok.inj hq
      exact h
    · rintro ⟨-, h⟩
      exact h p rfl
  | error fault =>
    have hclasses : (planClasses e (.error fault)).outcome = .error fault := rfl
    rw [hclasses, failsWithin_error, failsWithin_error]
    constructor
    · intro h
      exact ⟨h, fun q hq => by cases hq⟩
    · exact And.left

/-- A walk from the start, of an entity with its token and its length. -/
theorem failsWithin_fresh {plan : Plan} {walk : Walk Unit}
    (hwalk : RunsWithin lacking (Walker.Ready lacking e) walk fun _ => True)
    (hlength : plan.blockLength.isSome = true) (htoken : plan.token.isSome = true)
    (hheader : plan.kind = .message → lacking ∨ (Plan.headerTypes e.header).isSome = true)
    (hsteps : plan.steps = []) : FailsWithin lacking (planClasses e (fresh plan walk)).outcome := by
  have hready : Walker.Ready lacking e { plan } := by
    refine ⟨⟨hlength, ?_⟩, List.mem_singleton_self _, htoken, hheader, by simp [hsteps]⟩
    intro key hkey
    rw [List.mem_singleton.mp hkey]
    rfl
  have hrun : RunsWithin lacking (Walker.Ready lacking e) (walk >>= fun _ => finish) fun p =>
      FailsWithin lacking (p.classes e).outcome := hwalk.bind fun _ _ => runsWithin_finish
  unfold fresh EStateM.run
  cases h : (walk >>= fun _ => finish) { plan } with
  | ok p w => exact (hrun.result hready h).2
  | error fault w => exact failsWithin_error.mpr (hrun.fault hready h)

/-- A part of the entity is an entity of its own. -/
theorem runsWithin_inner {kind : EntityKind} (hkind : kind ≠ .message) (isExtensible : Bool) {token : Token}
    (htoken : token.Numbered) {walk : Walk Unit}
    (hwalk : RunsWithin lacking (Walker.Ready lacking e) walk fun _ => True) :
    RunsWithin lacking (Walker.Ready lacking e) (inner kind isExtensible token walk) fun p =>
      FailsWithin lacking (p.classes e).outcome := by
  rw [inner]
  refine runsWithin_get.bind fun w _ => ?_
  have hpart : FailsWithin lacking (planClasses e (fresh (w.part kind isExtensible token) walk)).outcome :=
    failsWithin_fresh hwalk htoken.encodedLength rfl (fun h => absurd h hkind) rfl
  obtain ⟨hplan, hclasses⟩ := failsWithin_planClasses.mp hpart
  exact runsWithin_ofExcept hplan hclasses

/-- What is read ahead of a group or of variable data: two tokens with the types that are needed of them. -/
theorem runsWithin_leading (cause : Inconsistency) {ts : List Token} (hread : ∀ t ∈ ts, t.IsRead)
    (hcomplete : lacking ∨ ts ≠ [] ∧ Leads ts ∧ ∀ t ∈ ts, t.signal = .encoding → t.primitive.isSome = true) :
    RunsWithin lacking (Walker.Ready lacking e) (leading cause ts) fun lead =>
      ts ≠ [] ∧ lead.2.NamesAsText ∧ (lacking ∨ lead.1.primitive.isSome = true) ∧
        (lacking ∨ lead.2.primitive.isSome = true) := by
  -- A list that is too short is not a wrong one: something is lacking in it.
  have hmissing (hlacking : lacking) : (Fault.pastEnd .list).MayArise lacking :=
    .inr ⟨hlacking, rfl⟩
  rw [leading.eq_def]
  split
  · obtain hlacking | ⟨hne, -⟩ := hcomplete
    · exact runsWithin_throw (hmissing hlacking)
    · exact absurd rfl hne
  · rename_i opening rest
    split
    · rename_i hopening
      have hopening := eq_of_beq hopening
      split
      · rename_i first second others
        refine runsWithin_pure ⟨by simp, (hread second (by simp)).names, ?_⟩
        obtain hlacking | ⟨-, hlead, htyped⟩ := hcomplete
        · exact ⟨.inl hlacking, .inl hlacking⟩
        · cases hlead with
          | composite _ hfirst hsecond =>
            exact ⟨.inr (htyped first (by simp) hfirst), .inr (htyped second (by simp) hsecond)⟩
          | other hopens => exact absurd hopening hopens
      · rename_i hfew
        obtain hlacking | ⟨-, hlead, -⟩ := hcomplete
        · exact runsWithin_throw (hmissing hlacking)
        · cases hlead with
          | composite => exact absurd rfl (hfew _ _ _)
          | other hopens => exact absurd hopening hopens
    · exact runsWithin_throw (.inl rfl)

/-- A count leads past a construct, or does not agree with the tokens. -/
theorem failsWithin_spanLength {ts : List Token} (hne : ts ≠ []) (hread : ∀ t ∈ ts, t.IsRead) :
    FailsWithin lacking (spanLength ts) := by
  cases ts with
  | nil => exact absurd rfl hne
  | cons token rest =>
    intro fault h
    have hcount := (hread token (List.mem_cons_self ..)).numbered.tokenCount
    obtain ⟨_, rfl⟩ := inconsistent_of_spanLength hcount h
    exact .inl rfl

end Walk

/-! ## Ranges of a construct -/

/-- The span of a construct ends with a token that closes it. -/
theorem exists_last_of_spanLength {token : Token} {rest : List Token} {span : SpanLength (token :: rest)}
    (h : spanLength (token :: rest) = .ok span) {construct : Construct}
    (hopens : token.signal = .opens construct) :
    ∃ last, last.signal = .closes construct ∧
      (token :: rest).take span.1 = (token :: rest).take (span.1 - 1) ++ [last] ∧
      token :: rest = (token :: rest).take (span.1 - 1) ++ last :: (token :: rest).drop span.1 := by
  obtain ⟨-, last, hlast, hends⟩ := count_of_spanLength h
  obtain ⟨n, hn⟩ : ∃ n, span.1 = n + 1 := ⟨span.1 - 1, by have := span.2.1; omega⟩
  rw [hn, Nat.add_sub_cancel] at hlast ⊢
  obtain ⟨hinside, hget⟩ := List.getElem?_eq_some_iff.mp hlast
  refine ⟨last, by simpa [Token.mayEndWith, hopens] using hends, ?_, ?_⟩
  · rw [← List.take_concat_get' _ _ hinside, hget]
  · rw [← hget, List.getElem_cons_drop, List.take_append_drop]

namespace Token.Complete

variable {token : Token} {rest : List Token} {span : SpanLength (token :: rest)}

/-- The elements of a group are as complete as what the group is part of. -/
theorem group (h : Complete (token :: rest)) (hspan : spanLength (token :: rest) = .ok span)
    (hopens : token.signal = .opens .group) (n : Nat) :
    Complete (((token :: rest).take span.1).drop n) := by
  obtain ⟨last, hlast, htake, hsplit⟩ := exists_last_of_spanLength hspan hopens
  have hrange : Complete ((token :: rest).take span.1) := by
    refine ⟨fun t ht => h.typed t (List.mem_of_mem_take ht), ?_⟩
    rw [htake]
    rw [hsplit] at h
    exact h.led.upTo hlast
  exact hrange.suffix (List.drop_suffix ..)

/-- The members of a composite are as complete as what the composite is part of. -/
theorem composite (h : Complete (token :: rest)) (hspan : spanLength (token :: rest) = .ok span)
    (hopens : token.signal = .opens .composite) (n : Nat) :
    Complete (((token :: rest).take (span.1 - 1)).drop n) := by
  obtain ⟨last, hlast, -, hsplit⟩ := exists_last_of_spanLength hspan hopens
  have hrange : Complete ((token :: rest).take (span.1 - 1)) := by
    refine ⟨fun t ht => h.typed t (List.mem_of_mem_take ht), ?_⟩
    rw [hsplit] at h
    exact h.led.before hlast
  exact hrange.suffix (List.drop_suffix ..)

end Token.Complete

namespace Walk

variable {lacking : Prop} {e : Edition}

section

variable {token : Token} {rest : List Token}

theorem drop_span_suffix (span : SpanLength (token :: rest)) : (token :: rest).drop span.1 <:+ rest := by
  obtain ⟨n, hn⟩ := Nat.exists_eq_add_of_le' span.2.1
  rw [hn]
  exact List.drop_suffix n rest

theorem runsWithin_spanLength (hread : ∀ t ∈ token :: rest, t.IsRead) :
    RunsWithin lacking (Walker.Ready lacking e) (ofExcept (spanLength (token :: rest)))
      fun span => spanLength (token :: rest) = .ok span :=
  runsWithin_ofExcept (failsWithin_spanLength (List.cons_ne_nil _ _) hread) fun _ h => h

theorem runsWithin_passOver (hread : ∀ t ∈ token :: rest, t.IsRead) :
    RunsWithin lacking (Walker.Ready lacking e) (passOver (token :: rest)) fun more => more <:+ rest :=
  (runsWithin_spanLength hread).bind fun span _ => runsWithin_pure (drop_span_suffix span)

/-- A turn over a field of a type that is passed over behind it. -/
theorem runsWithin_recordField {type : Token} (hread : ∀ t ∈ token :: rest, t.IsRead)
    (htype : type ∈ token :: rest) (htyped : type.signal = .encoding → lacking ∨ type.primitive.isSome = true) :
    RunsWithin lacking (Walker.Ready lacking e) (do
      let gap ← openField token type
      place token type gap (← fieldStep token type)
      passOver (token :: rest)) fun more => more <:+ rest := by
  have htoken := (hread token (List.mem_cons_self ..)).numbered
  refine (runsWithin_openField token type).bind fun gap _ => ?_
  refine (runsWithin_fieldStep token (hread type htype) htyped).bind fun step hstep => ?_
  exact (runsWithin_place htoken (hread type htype).numbered gap hstep).bind fun _ _ =>
    runsWithin_passOver hread

/-- A turn over a member composite whose members can be walked over. -/
theorem runsWithin_turn_composite (hs : token.signal = .opens .composite)
    (hread : ∀ t ∈ token :: rest, t.IsRead)
    (hinside : ∀ span, spanLength (token :: rest) = .ok span → RunsWithin lacking (Walker.Ready lacking e)
      (tokens (((token :: rest).take (span.1 - 1)).drop 1)) fun _ => True) :
    RunsWithin lacking (Walker.Ready lacking e) (turn token rest) fun more => more <:+ rest := by
  have htoken := (hread token (List.mem_cons_self ..)).numbered
  unfold turn
  simp only [hs]
  refine (runsWithin_openField token token).bind fun gap _ => ?_
  refine (runsWithin_spanLength hread).bind fun span hspan => ?_
  refine (runsWithin_inner (by simp) false htoken (hinside span hspan)).bind fun nested hnested => ?_
  refine (runsWithin_place htoken htoken gap ⟨fun _ _ => ?_, ?_⟩).bind
    fun _ _ => runsWithin_pure (drop_span_suffix span)
  · exact Codec.failsWithin_typedBodies .composite token _ ⟨_, rfl⟩
  · rintro q ⟨⟩
    exact hnested

/-- A turn over a group whose elements can be walked over. -/
theorem runsWithin_turn_group (hs : token.signal = .opens .group) (hread : ∀ t ∈ token :: rest, t.IsRead)
    (hcomplete : lacking ∨ Token.Complete (token :: rest))
    (hinside : ∀ span n, spanLength (token :: rest) = .ok span → RunsWithin lacking (Walker.Ready lacking e)
      (tokens (((token :: rest).take span.1).drop (1 + n))) fun _ => True) :
    RunsWithin lacking (Walker.Ready lacking e) (turn token rest) fun more => more <:+ rest := by
  have htoken := (hread token (List.mem_cons_self ..)).numbered
  have hrest : ∀ t ∈ rest, t.IsRead := fun t ht => hread t (List.mem_cons_of_mem _ ht)
  unfold turn
  simp only [hs]
  refine runsWithin_close.bind fun _ _ => ?_
  refine (runsWithin_spanLength hread).bind fun span hspan => ?_
  -- The token of a group does not close it, so its range goes on behind that token.
  have hne : rest ≠ [] := by
    rintro rfl
    obtain ⟨last, hlast, -, hsplit⟩ := exists_last_of_spanLength hspan hs
    have hmem : last ∈ [token] := by
      rw [hsplit]
      simp
    rw [List.mem_singleton.mp hmem, hs] at hlast
    cases hlast
  refine (runsWithin_leading _ hrest (hcomplete.imp_right fun h =>
    ⟨hne, h.led.leads List.suffix_rfl (.inl hs), fun t ht => h.typed t (List.mem_cons_of_mem _ ht)⟩)).bind ?_
  rintro ⟨blockLength, numInGroup⟩ ⟨-, -, hblock, hnum⟩
  refine (runsWithin_ofExcept (failsWithin_spanLength hne hrest) fun _ _ => trivial).bind
    fun dimensions _ => ?_
  refine (runsWithin_inner (by simp) true htoken (hinside span dimensions.1 hspan)).bind
    fun element helement => ?_
  refine (runsWithin_push ⟨fun _ _ => ?_, ?_⟩).bind fun _ _ => runsWithin_pure (drop_span_suffix span)
  · exact Codec.failsWithin_groupBodies token _ hblock hnum
  · rintro q ⟨⟩
    exact helement

/-- A turn over variable data. -/
theorem runsWithin_turn_varData (hs : token.signal = .opens .varData)
    (hread : ∀ t ∈ token :: rest, t.IsRead) (hcomplete : lacking ∨ Token.Complete (token :: rest)) :
    RunsWithin lacking (Walker.Ready lacking e) (turn token rest) fun more => more <:+ rest := by
  unfold turn
  simp only [hs]
  refine runsWithin_close.bind fun _ _ => ?_
  -- The count is not read yet, so only the tokens themselves say that something follows.
  refine (runsWithin_leading _ (fun t ht => hread t (List.mem_cons_of_mem _ ht)) (hcomplete.imp_right fun h =>
    ⟨h.led.follows List.suffix_rfl hs, h.led.leads List.suffix_rfl (.inr hs),
      fun t ht => h.typed t (List.mem_cons_of_mem _ ht)⟩)).bind ?_
  rintro ⟨length, data⟩ ⟨-, hdata, hlength, htypedData⟩
  refine (runsWithin_push ⟨fun _ _ => ?_, fun _ h => by cases h⟩).bind fun _ _ => runsWithin_passOver hread
  exact Codec.failsWithin_varDataBodies token hdata hlength htypedData

/-- **A turn is made as far as the tokens agree**, if the parts that get plans of their own can be walked
over. -/
theorem runsWithin_turn (hread : ∀ t ∈ token :: rest, t.IsRead)
    (hcomplete : lacking ∨ Token.Complete (token :: rest))
    (hpart : ∀ part : List Token, part.length ≤ rest.length → part ⊆ token :: rest →
      lacking ∨ Token.Complete part →
      RunsWithin lacking (Walker.Ready lacking e) (tokens part) fun _ => True) :
    RunsWithin lacking (Walker.Ready lacking e) (turn token rest) fun more => more <:+ rest := by
  have htoken := hread token (List.mem_cons_self ..)
  have htyped {type : Token} (htype : type ∈ token :: rest) (hs : type.signal = .encoding) :
      lacking ∨ type.primitive.isSome = true :=
    hcomplete.imp_right fun h => h.typed type htype hs
  have hgo : RunsWithin lacking (Walker.Ready lacking e) (pure rest : Walk (List Token))
      fun more => more <:+ rest := runsWithin_pure List.suffix_rfl
  -- A step that is recorded in passing, with nothing else done at the token.
  have hcheck {step : Step} (hstep : step.FailsWithin lacking e) :
      RunsWithin lacking (Walker.Ready lacking e) (push step >>= fun _ => pure rest)
        fun more => more <:+ rest := (runsWithin_push hstep).bind fun _ _ => hgo
  cases hs : token.signal with
  | opens construct =>
    cases construct with
    | composite =>
      refine runsWithin_turn_composite hs hread fun span hspan => ?_
      refine hpart _ ?_ (fun t ht => List.mem_of_mem_take (List.mem_of_mem_drop ht))
        (hcomplete.imp_right fun h => h.composite hspan hs 1)
      simp only [List.length_drop, List.length_take, List.length_cons]
      omega
    | group =>
      refine runsWithin_turn_group hs hread hcomplete fun span n hspan => ?_
      refine hpart _ ?_ (fun t ht => List.mem_of_mem_take (List.mem_of_mem_drop ht))
        (hcomplete.imp_right fun h => h.group hspan hs _)
      simp only [List.length_drop, List.length_take, List.length_cons]
      omega
    | varData => exact runsWithin_turn_varData hs hread hcomplete
    | message =>
      unfold turn
      simp only [hs]
      exact hcheck ⟨fun _ _ => failsWithin_ok _, fun _ h => by cases h⟩
    | field =>
      unfold turn
      simp only [hs]
      cases rest with
      | nil => exact runsWithin_throw (.inl rfl)
      | cons type rest => exact runsWithin_recordField hread (by simp) (htyped (by simp))
    | enumeration | choiceSet =>
      unfold turn
      simp only [hs]
      exact runsWithin_recordField hread (List.mem_cons_self ..) (htyped (List.mem_cons_self ..))
  | closes construct =>
    unfold turn
    cases construct with
    | message =>
      simp only [hs]
      exact runsWithin_close.bind fun _ _ => hcheck ⟨fun _ _ => failsWithin_ok _, fun _ h => by cases h⟩
    | group =>
      simp only [hs]
      exact runsWithin_close.bind fun _ _ => hgo
    | _ =>
      simp only [hs]
      exact hgo
  | encoding =>
    unfold turn
    simp only [hs]
    refine (runsWithin_openField token token).bind fun gap _ => ?_
    have hstep : (Step.primitive token token).FailsWithin lacking e :=
      ⟨fun _ _ => Codec.failsWithin_primitiveBodies token htoken (htyped (List.mem_cons_self ..) hs),
        fun _ h => by cases h⟩
    exact (runsWithin_place htoken.numbered htoken.numbered gap hstep).bind fun _ _ => hgo
  | _ =>
    unfold turn
    simp only [hs]
    exact hgo

end

/-- **A walk goes on as far as its tokens agree**, unless something is lacking of them. -/
theorem runsWithin_tokens {ts : List Token} (hread : ∀ t ∈ ts, t.IsRead)
    (hcomplete : lacking ∨ Token.Complete ts) :
    RunsWithin lacking (Walker.Ready lacking e) (tokens ts) fun _ => True := by
  -- By the length: a walk goes on with the rest of the tokens, or behind a construct, or within it.
  induction hn : ts.length using Nat.strongRecOn generalizing ts with
  | ind n ih =>
    cases ts with
    | nil =>
      rw [tokens]
      exact runsWithin_pure trivial
    | cons token rest =>
      rw [List.length_cons] at hn
      have hpart (part : List Token) (hshort : part.length ≤ rest.length) (hsub : part ⊆ token :: rest)
          (hcomplete : lacking ∨ Token.Complete part) :
          RunsWithin lacking (Walker.Ready lacking e) (tokens part) fun _ => True :=
        ih part.length (by omega) (fun t ht => hread t (hsub ht)) hcomplete rfl
      rw [tokens_cons]
      refine (runsWithin_turn hread hcomplete hpart).bind fun more hmore => ?_
      have hsuffix := hmore.trans (List.suffix_cons token rest)
      exact hpart more hmore.length_le hsuffix.subset (hcomplete.imp_right fun h => h.suffix hsuffix)

end Walk

/-! ## Plans -/

namespace Plan

variable {lacking : Prop} {e : Edition} {token : Token} {rest : List Token}

/-- The classes of a message lack nothing that its tokens and the header do not lack. -/
theorem failsWithin_ofMessage (typeName : String) (hread : ∀ t ∈ token :: rest, t.IsRead)
    (hcomplete : lacking ∨ Token.Complete (token :: rest))
    (hheader : lacking ∨ (headerTypes e.header).isSome = true) :
    FailsWithin lacking (planClasses e (ofMessage typeName (token :: rest))).outcome := by
  have hlength := (hread token (List.mem_cons_self ..)).numbered.encodedLength
  exact Walk.failsWithin_fresh (Walk.runsWithin_tokens hread hcomplete) hlength rfl (fun _ => hheader) rfl

/-- The classes of a composite lack nothing that the tokens between its first and its last do not lack. -/
theorem failsWithin_ofComposite (typeName : String) (hread : ∀ t ∈ token :: rest, t.IsRead)
    (hcomplete : lacking ∨ Token.Complete rest.dropLast) :
    FailsWithin lacking (planClasses e (ofComposite typeName (token :: rest))).outcome := by
  have hlength := (hread token (List.mem_cons_self ..)).numbered.encodedLength
  have hinside : ∀ t ∈ rest.dropLast, t.IsRead := fun t ht =>
    hread t (List.mem_cons_of_mem _ (List.mem_of_mem_dropLast ht))
  exact Walk.failsWithin_fresh (Walk.runsWithin_tokens hinside hcomplete) hlength rfl (fun h => by cases h) rfl

end Plan

end SimpleBinary
