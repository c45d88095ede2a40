import SimpleBinary.Proofs.Block.Extent
import SimpleBinary.Proofs.Forest.Agreement
import SimpleBinary.Proofs.Forest.Brackets
import SimpleBinary.Proofs.Walk.Moves

/-!
What a walk is refused for.

Where all counts are left to the reader and all numbers are there, a walk over a forest can stop for three
reasons only, all of them told by a token and the one behind it (`Walk.Stuck`): a field begins before the
offset that is reached, a field has no type, or a group or variable data has no composite. The offset is that
of a level, which is what one walker goes over: the message, the element of a group, or a composite that is a
member. A walk either goes on or is stuck, for single steps (`Walk.Settles`) and so for a whole forest
(`Walk.settles_nodes`), and the plan of a message is refused exactly if some level has a place where its walk
is stuck (`Plan.ofMessage_refused_iff`).
-/

set_option autoImplicit false

namespace SimpleBinary

open Node (openToken closeToken tokensAll entriesAll)

/-- The inconsistencies that a walk over a forest can meet. -/
inductive Inconsistency.IsMetByWalk : Inconsistency → Prop
  | overlap (type : String) (field : Text) (declared reached : Int) :
      IsMetByWalk (.overlap type field declared reached)
  | fieldEncoding (field : Text) (found : Signal) : IsMetByWalk (.fieldEncoding field found)
  | groupDimensions (group : Text) : IsMetByWalk (.groupDimensions group)
  | varDataLength (varData : Text) : IsMetByWalk (.varDataLength varData)

/-- Whether the numbers of a token are there that a walk computes with. -/
def Token.IsMeasured (t : Token) : Prop :=
  t.version.isSome ∧ t.encodedLength.isSome

namespace Walk

/-- The signals of the types that a field can have. -/
def typeSignals : List Signal :=
  [.encoding, .opens .enumeration, .opens .choiceSet, .opens .composite]

/-- Whether a field that is not a constant declares an offset before the one that is reached. -/
def Overlaps (offset : Int) (field type : Token) : Prop :=
  isConstant field type = false ∧ ∃ declared, declaredOffset field type = some declared ∧ declared < offset

/-- Whether a walk that has reached an offset is stuck at a token, given the tokens after it. -/
def Stuck (offset : Int) (token : Token) (rest : List Token) : Prop :=
  (∃ field type, stopAt token rest = some (.field field type) ∧ Overlaps offset field type) ∨
  (token.signal = .opens .field ∧ ∃ next, rest.head? = some next ∧ next.signal ∉ typeSignals) ∨
  ((token.signal = .opens .group ∨ token.signal = .opens .varData) ∧
    ∃ next, rest.head? = some next ∧ next.signal ≠ .opens .composite)

end Walk

theorem Walk.reach_append (offset : Int) (met more : List Stop) :
    reach offset (met ++ more) = reach (reach offset met) more :=
  List.foldl_append

/-! ## Levels -/

namespace Node

/-- The first token of a node. -/
def opener : Node → Token
  | .leaf atom entry => (entry.withSignal atom.signal).token
  | .span construct opening parts _ => openToken construct opening parts

/-- The tokens of a node behind the first one. -/
def inside : Node → List Token
  | .leaf _ _ => []
  | .span construct _ parts closing => tokensAll parts ++ [closeToken construct closing]

/-- What a walk meets at a node. -/
def stop? (n : Node) : Option Stop :=
  Walk.stopAt n.opener n.inside

mutual

/-- The nodes that a walker goes over: a message is entered, and anything else is one of its steps. -/
def flat : Node → List Node
  | .span .message _ parts _ => flatAll parts
  | n => [n]

/-- The nodes that a walker of a forest goes over. -/
def flatAll : List Node → List Node
  | [] => []
  | n :: rest => n.flat ++ flatAll rest

end

mutual

/-- The levels inside a node, which have walkers of their own: the members of composites, and the elements
of groups, behind their dimensions. What is inside a field, an enumeration or a set is not walked over. -/
def levels : Node → List (List Node)
  | .span .message _ parts _ => levelsAll parts
  | .span .composite _ parts _ => flatAll parts :: levelsAll parts
  | .span .group _ (_ :: members) _ => flatAll members :: levelsAll members
  | _ => []

/-- The levels inside the nodes of a forest. -/
def levelsAll : List Node → List (List Node)
  | [] => []
  | n :: rest => n.levels ++ levelsAll rest

end

/-- Whether a walk over a level, from an offset on, gets stuck somewhere. The offset of a place is where the
fields before it end. -/
def GetsStuck (offset : Int) (level : List Node) : Prop :=
  ∃ before n after, level = before ++ n :: after ∧
    Walk.Stuck (Walk.reach offset (before.filterMap stop?)) n.opener n.inside

/-- Whether a walk over a level, or over one of the levels further inside, gets stuck. -/
def AnyStuck (offset : Int) (level : List Node) (deeper : List (List Node)) : Prop :=
  GetsStuck offset level ∨ ∃ other ∈ deeper, GetsStuck 0 other

section

variable {offset : Int} {level others : List Node} {deeper more : List (List Node)} {n : Node}

@[simp] theorem not_getsStuck_nil : ¬ GetsStuck offset [] := by
  rintro ⟨before, n, after, h, -⟩
  cases before <;> cases h

/-- A walk gets stuck at the first node, or behind it. -/
theorem getsStuck_cons : GetsStuck offset (n :: level) ↔
    Walk.Stuck offset n.opener n.inside ∨
      GetsStuck (Walk.reach offset n.stop?.toList) level := by
  constructor
  · rintro ⟨_ | ⟨first, before⟩, m, after, hsplit, hstuck⟩
    · obtain ⟨rfl, rfl⟩ := List.cons.inj hsplit
      exact .inl hstuck
    · obtain ⟨rfl, rfl⟩ := List.cons.inj hsplit
      refine .inr ⟨before, m, after, rfl, ?_⟩
      cases hstop : n.stop? with
      | none => simpa [List.filterMap_cons, hstop] using hstuck
      | some stop => simpa [List.filterMap_cons, hstop, Walk.reach_cons] using hstuck
  · rintro (hstuck | ⟨before, m, after, rfl, hstuck⟩)
    · exact ⟨[], n, level, rfl, hstuck⟩
    · refine ⟨n :: before, m, after, rfl, ?_⟩
      cases hstop : n.stop? with
      | none => simpa [List.filterMap_cons, hstop] using hstuck
      | some stop => simpa [List.filterMap_cons, hstop, Walk.reach_cons] using hstuck

theorem getsStuck_append : GetsStuck offset (level ++ others) ↔
    GetsStuck offset level ∨ GetsStuck (Walk.reach offset (level.filterMap stop?)) others := by
  induction level generalizing offset with
  | nil => simp
  | cons n rest ih =>
    rw [List.cons_append, getsStuck_cons, getsStuck_cons, ih, or_assoc]
    cases hstop : n.stop? with
    | none => simp [hstop]
    | some stop => simp [hstop, Walk.reach_cons]

/-- A walk over two parts of a level gets stuck in one of them, the second from where the first ends. -/
theorem anyStuck_append : AnyStuck offset (level ++ others) (deeper ++ more) ↔
    AnyStuck offset level deeper ∨
      AnyStuck (Walk.reach offset (level.filterMap stop?)) others more := by
  simp only [AnyStuck, getsStuck_append, List.mem_append, or_and_right, exists_or]
  exact or_or_or_comm

@[simp] theorem not_anyStuck_nil : ¬ AnyStuck offset [] [] := by
  simp [AnyStuck]

/-- A level that is one node. -/
theorem anyStuck_singleton : AnyStuck offset [n] deeper ↔
    Walk.Stuck offset n.opener n.inside ∨ ∃ other ∈ deeper, GetsStuck 0 other := by
  simp [AnyStuck, getsStuck_cons]

end

end Node

/-! ## Steps that go on or stop -/

namespace Walk

/-- Whether a walk goes on exactly if it is not stuck: it succeeds, with what is said of the result, or stops
for one of the inconsistencies. -/
inductive Settles {α : Type} (x : Walk α) (w : Walker) (stuck : Prop) (post : α → Walker → Prop) : Prop
  | goesOn {a : α} {u : Walker} : ¬ stuck → x w = .ok a u → post a u → Settles x w stuck post
  | stops {cause : Inconsistency} {u : Walker} : stuck → x w = .error (.inconsistent cause) u →
      cause.IsMetByWalk → Settles x w stuck post

/-- Whether a walker can go on, with the offset at some place. -/
def Stands (offset : Int) (w : Walker) : Prop :=
  w.Sound ∧ w.offset = offset

namespace Settles

variable {α β : Type} {x : Walk α} {w : Walker} {stuck stuck' : Prop} {post : α → Walker → Prop}

theorem congr (h : Settles x w stuck post) (hiff : stuck ↔ stuck') : Settles x w stuck' post := by
  rwa [← propext hiff]

theorem of_ok {a : α} {u : Walker} (h : x w = .ok a u) (hpost : post a u) : Settles x w False post :=
  .goesOn not_false h hpost

/-- What follows a walk is reached where it goes on. -/
theorem bind {f : α → Walk β} {post' : β → Walker → Prop} (h : Settles x w stuck post)
    (hf : ∀ a u, x w = .ok a u → post a u → Settles (f a) u stuck' post') :
    Settles (x >>= f) w (stuck ∨ stuck') post' := by
  cases h with
  | @stops cause u hstuck hx hcause =>
    refine .stops (u := u) (.inl hstuck) ?_ hcause
    show EStateM.bind x f w = _
    rw [EStateM.bind, hx]
  | @goesOn a u hfree hx hpost =>
    have hrun : (x >>= f) w = f a u := by
      show EStateM.bind x f w = _
      rw [EStateM.bind, hx]
    cases hf a u hx hpost with
    | goesOn hfree' hfa hpost' =>
      exact .goesOn (not_or.mpr ⟨hfree, hfree'⟩) (hrun.trans hfa) hpost'
    | stops hstuck hfa hcause => exact .stops (.inr hstuck) (hrun.trans hfa) hcause

/-- What is never stuck is no reason to stop. -/
theorem bind_left {f : α → Walk β} {post' : β → Walker → Prop} (h : Settles x w False post)
    (hf : ∀ a u, x w = .ok a u → post a u → Settles (f a) u stuck' post') :
    Settles (x >>= f) w stuck' post' :=
  (h.bind hf).congr (iff_of_eq (false_or _))

/-- Nothing follows where a walk is stuck. -/
theorem bind_of_stuck {f : α → Walk β} {post' : β → Walker → Prop} (h : Settles x w stuck post)
    (hstuck : stuck) : Settles (x >>= f) w stuck post' := by
  cases h with
  | goesOn hfree => exact absurd hstuck hfree
  | @stops cause u _ hx hcause =>
    refine .stops (u := u) hstuck ?_ hcause
    show EStateM.bind x f w = _
    rw [EStateM.bind, hx]

theorem mono {post' : α → Walker → Prop} (h : Settles x w stuck post)
    (hpost : ∀ a u, post a u → post' a u) : Settles x w stuck post' := by
  cases h with
  | goesOn hfree hx ha => exact .goesOn hfree hx (hpost _ _ ha)
  | stops hstuck hx hcause => exact .stops hstuck hx hcause

end Settles

section

variable {w : Walker} {offset : Int}

theorem settles_push (hw : Stands offset w) (step : Step) :
    Settles (push step) w False fun _ => Stands offset :=
  .of_ok (u := w.extend [step]) rfl ⟨⟨hw.1.hasLength, hw.1.dated⟩, hw.2⟩

/-- A walker that stands can always close its block. -/
theorem settles_close (hw : Stands offset w) : Settles close w False fun _ => Stands offset := by
  by_cases hclosed : w.isClosed = true
  · exact .of_ok (close_of_isClosed hclosed) hw
  · obtain ⟨length, hlength⟩ := Option.isSome_iff_exists.mp hw.1.hasLength
    obtain ⟨known, hknown⟩ := FieldEnds.exists_knownLengths hw.1.dated
    exact .of_ok (close_of_open (Bool.eq_false_iff.mpr hclosed) hlength hknown)
      ⟨⟨hw.1.hasLength, hw.1.dated⟩, hw.2⟩

theorem settles_finish (hw : Stands offset w) : Settles finish w False fun _ _ => True :=
  (settles_close hw).bind_left fun _ _ _ _ => .of_ok rfl trivial

/-- Whether a plan is there exactly if nothing is stuck, and is refused for one of the inconsistencies if
something is. -/
def Decided (outcome : Except Fault Plan) (stuck : Prop) : Prop :=
  (¬ stuck ∧ ∃ plan, outcome = .ok plan) ∨
    (stuck ∧ ∃ cause, outcome = .error (.inconsistent cause) ∧ cause.IsMetByWalk)

/-- The plan of an entity is refused if the walk over it gets stuck. -/
theorem decided_fresh {plan : Plan} {walk : Walk Unit} {stuck : Prop} (hlength : plan.blockLength.isSome)
    (hwalk : ∀ v : Walker, Stands 0 v → Settles walk v stuck fun _ u => ∃ reached, Stands reached u) :
    Decided (fresh plan walk) stuck := by
  have hstart : Stands 0 { plan } := ⟨⟨hlength, by simp [FieldEnds.Dated]⟩, rfl⟩
  have hplan : Settles (do walk; finish : Walk Plan) { plan } stuck fun _ _ => True :=
    ((hwalk _ hstart).bind fun _ _ _ hu => settles_finish hu.choose_spec).congr (iff_of_eq (or_false _))
  unfold fresh EStateM.run
  cases hplan with
  | goesOn hfree hrun =>
    rw [hrun]
    exact .inl ⟨hfree, _, rfl⟩
  | stops hstuck hrun hcause =>
    rw [hrun]
    exact .inr ⟨hstuck, _, rfl, hcause⟩

/-- The plan of a part is refused if the walk over it gets stuck, and nothing is left of that walk. -/
theorem settles_inner {kind : EntityKind} {isExtensible : Bool} {token : Token} {walk : Walk Unit}
    {stuck : Prop} (hlength : token.encodedLength.isSome)
    (hwalk : ∀ v : Walker, Stands 0 v → Settles walk v stuck fun _ u => ∃ reached, Stands reached u) :
    Settles (inner kind isExtensible token walk) w stuck fun _ u => u = w := by
  have hinner : inner kind isExtensible token walk w =
      ofExcept (fresh (w.part kind isExtensible token) walk) w := rfl
  have hdecided : Decided (fresh (w.part kind isExtensible token) walk) stuck :=
    decided_fresh hlength hwalk
  rcases hdecided with ⟨hfree, plan, hplan⟩ | ⟨hstuck, cause, hfault, hcause⟩
  · rw [hplan] at hinner
    exact .goesOn hfree hinner rfl
  · rw [hfault] at hinner
    exact .stops hstuck hinner hcause

/-- What leads a group or variable data is missing if no composite is there. -/
theorem settles_leading {cause : Inconsistency} (hcause : cause.IsMetByWalk) {ts : List Token}
    (hleads : 3 ≤ ts.length ∨ ∃ token rest, ts = token :: rest ∧ token.signal ≠ .opens .composite) :
    Settles (leading cause ts) w (∃ next, ts.head? = some next ∧ next.signal ≠ .opens .composite)
      fun _ u => u = w := by
  by_cases hne : ∃ next, ts.head? = some next ∧ next.signal ≠ .opens .composite
  · obtain ⟨next, hnext, hsignal⟩ := hne
    obtain ⟨rest, rfl⟩ := List.head?_eq_some_iff.mp hnext
    refine .stops ⟨next, rfl, hsignal⟩ (u := w) ?_ hcause
    rw [leading_of_ne cause hsignal]
    rfl
  · have hlong : 3 ≤ ts.length := by
      refine hleads.resolve_right ?_
      rintro ⟨token, rest, rfl, hsignal⟩
      exact hne ⟨token, rfl, hsignal⟩
    -- If a composite leads, there are three tokens, and those behind the first one are read ahead.
    obtain ⟨composite, rest, rfl⟩ := List.exists_cons_of_length_pos (l := ts) (by omega)
    rw [List.length_cons] at hlong
    obtain ⟨first, rest, rfl⟩ := List.exists_cons_of_length_pos (l := rest) (by omega)
    rw [List.length_cons] at hlong
    obtain ⟨second, rest, rfl⟩ := List.exists_cons_of_length_pos (l := rest) (by omega)
    have hsignal : composite.signal = .opens .composite := by
      by_contra hsignal
      exact hne ⟨composite, rfl, hsignal⟩
    refine .goesOn hne (a := (first, second)) (u := w) ?_ rfl
    simp only [leading, hsignal, beq_self_eq_true, if_true]
    rfl

/-! ## Fields -/

variable {field type : Token}

theorem settles_pad (hw : Stands offset w) (hwire : isConstant field type = false) :
    Settles (pad field type) w (Overlaps offset field type) fun _ => Stands offset := by
  refine Settles.congr ?_ (and_iff_right hwire).symm
  obtain ⟨hsound, rfl⟩ := hw
  rw [pad]
  cases hdeclared : declaredOffset field type with
  | none => exact .goesOn (by simp) rfl ⟨hsound, rfl⟩
  | some declared =>
    have hrun : (do
          let w ← get
          let size := declared - w.offset
          if size < 0 then fail (.overlap w.plan.typeName field.name declared w.offset)
          else if size = 0 then return 0
          else do
            push (.gap size field.version false)
            return size : Walk Int) w =
        (if declared - w.offset < 0 then
          fail (.overlap w.plan.typeName field.name declared w.offset)
        else if declared - w.offset = 0 then return 0
        else do
          push (.gap (declared - w.offset) field.version false)
          return declared - w.offset : Walk Int) w := rfl
    -- The declared offset lies before the one that is reached, or at it, or leaves a gap.
    by_cases hbefore : declared < w.offset
    · refine .stops (u := w) ⟨declared, rfl, hbefore⟩ ?_ (.overlap w.plan.typeName field.name declared w.offset)
      refine hrun.trans ?_
      rw [if_pos (by omega)]
      rfl
    · have hfree : ¬ ∃ d, some declared = some d ∧ d < w.offset := by
        rintro ⟨_, hsome, h⟩
        rw [← Option.some.inj hsome] at h
        exact hbefore h
      by_cases hreached : declared - w.offset = 0
      · refine .goesOn hfree (a := 0) (u := w) ?_ ⟨hsound, rfl⟩
        refine hrun.trans ?_
        rw [if_neg (by omega), if_pos hreached]
        rfl
      · have hpush : Stands w.offset (w.extend [.gap (declared - w.offset) field.version false]) :=
          ⟨⟨hsound.hasLength, hsound.dated⟩, rfl⟩
        refine .goesOn hfree (a := declared - w.offset) (hrun.trans ?_) hpush
        rw [if_neg (by omega), if_neg hreached]
        rfl

theorem settles_openField (hw : Stands offset w) :
    Settles (openField field type) w (Overlaps offset field type) fun _ => Stands offset := by
  unfold openField
  split
  · rename_i hconstant
    exact .goesOn (fun h => by simp [h.1] at hconstant) rfl hw
  · rename_i hwire
    exact settles_pad hw (Bool.eq_false_iff.mpr hwire)

/-- A field can be placed if its length is there. -/
theorem exists_place (hlength : type.encodedLength.isSome) (gap : Int) (step : Step) (v : Walker) :
    ∃ u, place field type gap step v = .ok () u := by
  obtain ⟨length, hlength⟩ := Option.isSome_iff_exists.mp hlength
  unfold place
  simp only [hlength]
  cases isConstant field type <;> exact ⟨_, rfl⟩

/-- Behind a field that is placed, the offset is that of its end. -/
theorem stands_of_places {step : Step} {u : Walker} (hw : Stands offset w)
    (hversion : field.version.isSome) (h : w.Places field type step u) :
    Stands ((Stop.field field type).behind offset) u := by
  obtain ⟨hsound, rfl⟩ := hw
  cases h with
  | constant hconstant => exact ⟨⟨hsound.hasLength, hsound.dated⟩, by simp [Stop.behind, hconstant]⟩
  | @onWire size length v hwire hpads hlength =>
    refine ⟨⟨?_, ?_⟩, ?_⟩
    · cases hpads <;> exact hsound.hasLength
    · refine FieldEnds.dated_record.mpr ⟨Option.isSome_iff_exists.mp hversion, ?_⟩
      cases hpads <;> exact hsound.dated
    · rw [Walker.advance_offset, Stop.behind, hwire, hlength]
      cases hpads with
      | undeclared hdeclared => simp [hdeclared]
      | reached hdeclared => simp [hdeclared]
      | gap _ hdeclared => simp [hdeclared, Int.add_assoc]

/-- **A field** is placed behind its padding, unless it overlaps or there is no step for it. -/
theorem settles_member {y : Walk Step} {stuck : Prop} (hw : Stands offset w)
    (hversion : field.version.isSome) (hlength : type.encodedLength.isSome)
    (hy : ∀ v : Walker, Settles y v stuck fun _ u => u = v) :
    Settles (do let gap ← openField field type; let step ← y; place field type gap step) w
      (Overlaps offset field type ∨ stuck) fun _ => Stands ((Stop.field field type).behind offset) := by
  refine (settles_openField hw).bind fun gap v hopen _ => ?_
  refine ((hy v).bind fun step u _ hu => ?_).congr (iff_of_eq (or_false _))
  subst hu
  obtain ⟨end_, hplace⟩ := exists_place hlength gap step u
  exact .of_ok hplace (stands_of_places hw hversion (place_ok hopen hplace))

/-- The step of a field is there unless its type is none. -/
theorem settles_fieldStep (field type : Token) (v : Walker) :
    Settles (fieldStep field type) v (type.signal ∉ typeSignals) fun _ u => u = v := by
  unfold fieldStep
  split
  iterate 4
    · rename_i hsignal
      exact .goesOn (by simp [typeSignals, hsignal]) rfl rfl
  · rename_i hencoding henumeration hchoiceSet hcomposite
    refine .stops ?_ (u := v) rfl (.fieldEncoding field.name type.signal)
    simpa [typeSignals] using ⟨hencoding, henumeration, hchoiceSet, hcomposite⟩

end

/-! ## Where a walk is stuck, by the kind of token -/

section

variable {offset : Int} {token next : Token} {rest : List Token}

theorem stuck_field (hs : token.signal = .opens .field) :
    Stuck offset token (next :: rest) ↔ Overlaps offset token next ∨ next.signal ∉ typeSignals := by
  simp [Stuck, stopAt, hs]

theorem stuck_member (hs : token.signal ∈ typeSignals) :
    Stuck offset token rest ↔ Overlaps offset token token := by
  simp only [typeSignals, List.mem_cons, List.not_mem_nil, or_false] at hs
  rcases hs with hs | hs | hs | hs <;> simp [Stuck, stopAt, hs]

theorem stuck_led (hs : token.signal = .opens .group ∨ token.signal = .opens .varData) :
    Stuck offset token rest ↔ ∃ next, rest.head? = some next ∧ next.signal ≠ .opens .composite := by
  rcases hs with hs | hs <;> simp [Stuck, stopAt, hs]

theorem stopAt_member (hs : token.signal ∈ typeSignals) : stopAt token rest = some (.field token token) := by
  simp only [typeSignals, List.mem_cons, List.not_mem_nil, or_false] at hs
  rcases hs with hs | hs | hs | hs <;> simp [stopAt, hs]

end

/-! ## Nodes -/

open Node (AnyStuck GetsStuck)

section

variable {x : Walk Unit} {n : Node} {w : Walker} {offset : Int}

/-- A node that is a step of its level is passed unless the walk is stuck there, or in a level inside. -/
theorem Settles.of_step (here deep : Prop) (stop : Option Stop) (hflat : n.flat = [n])
    (hstop : n.stop? = stop) (hhere : here ↔ Stuck offset n.opener n.inside)
    (hdeep : deep ↔ ∃ other ∈ n.levels, GetsStuck 0 other)
    (h : Settles x w (here ∨ deep) fun _ => Stands (reach offset stop.toList)) :
    Settles x w (AnyStuck offset n.flat n.levels)
      fun _ => Stands (reach offset (n.flat.filterMap Node.stop?)) := by
  have hstops : n.flat.filterMap Node.stop? = stop.toList := by
    rw [hflat, List.filterMap_cons, hstop]
    cases stop <;> rfl
  rw [hstops]
  refine h.congr ?_
  rw [hflat, Node.anyStuck_singleton, hhere, hdeep]

/-- A node of which no level is inside. -/
theorem Settles.of_shallow (here : Prop) (stop : Option Stop) (hflat : n.flat = [n])
    (hstop : n.stop? = stop) (hhere : here ↔ Stuck offset n.opener n.inside) (hlevels : n.levels = [])
    (h : Settles x w here fun _ => Stands (reach offset stop.toList)) :
    Settles x w (AnyStuck offset n.flat n.levels)
      fun _ => Stands (reach offset (n.flat.filterMap Node.stop?)) :=
  .of_step here False stop hflat hstop hhere (by simp [hlevels]) (h.congr (iff_of_eq (or_false _)).symm)

/-- What is said of a level and of those further inside, as one list of levels. -/
theorem anyStuck_iff {level : List Node} {deeper : List (List Node)} :
    AnyStuck 0 level deeper ↔ ∃ other ∈ level :: deeper, GetsStuck 0 other := by
  simp [AnyStuck]

end

section

variable {w : Walker} {offset : Int} {opening closing : Entry} {parts members : List Node} {dimensions : Node}

/-- A member composite overlaps, or the walk gets stuck on the level of its members or further inside. -/
theorem settles_composite (h : ∀ t ∈ (Node.span .composite opening parts closing).tokens, t.IsMeasured)
    (hw : Stands offset w)
    (hparts : ∀ {u : Walker}, Stands 0 u →
      Settles (nodes parts) u (AnyStuck 0 (Node.flatAll parts) (Node.levelsAll parts))
        fun _ => Stands (reach 0 ((Node.flatAll parts).filterMap Node.stop?))) :
    Settles (node (.span .composite opening parts closing)) w
      (AnyStuck offset (Node.span .composite opening parts closing).flat
        (Node.span .composite opening parts closing).levels)
      fun _ => Stands (reach offset
        ((Node.span .composite opening parts closing).flat.filterMap Node.stop?)) := by
  have hmeasured := h _ (List.mem_cons_self ..)
  have hsignal : (openToken .composite opening parts).signal ∈ typeSignals := by
    simp [typeSignals]
  refine .of_step _ _ _ rfl (stopAt_member hsignal) (stuck_member hsignal).symm anyStuck_iff ?_
  -- The members are walked from the start of a block of their own, between the padding and the step.
  have hnested (v : Walker) : Settles
      (inner .composite false (openToken .composite opening parts) (nodes parts) >>= fun nested =>
        pure (Step.typed .composite (.text nested.typeName) (openToken .composite opening parts)
          (openToken .composite opening parts) (some nested)))
      v (AnyStuck 0 (Node.flatAll parts) (Node.levelsAll parts)) fun _ u => u = v := by
    refine ((settles_inner hmeasured.2 fun u hu => ?_).bind fun nested u _ hu => ?_).congr
      (iff_of_eq (or_false _))
    · exact (hparts hu).mono fun _ _ hend => ⟨_, hend⟩
    · exact .of_ok rfl hu
  have hmember := settles_member hw hmeasured.1 hmeasured.2 hnested
  simp only [bind_assoc, pure_bind] at hmember
  rw [node]
  exact hmember

/-- A group has no dimensions, or the walk gets stuck on the level of its members or further inside. -/
theorem settles_group
    (h : ∀ t ∈ (Node.span .group opening (dimensions :: members) closing).tokens, t.IsMeasured)
    (hw : Stands offset w)
    (hmembers : ∀ {u : Walker}, Stands 0 u →
      Settles (nodes members) u (AnyStuck 0 (Node.flatAll members) (Node.levelsAll members))
        fun _ => Stands (reach 0 ((Node.flatAll members).filterMap Node.stop?))) :
    Settles (node (.span .group opening (dimensions :: members) closing)) w
      (AnyStuck offset (Node.span .group opening (dimensions :: members) closing).flat
        (Node.span .group opening (dimensions :: members) closing).levels)
      fun _ => Stands (reach offset
        ((Node.span .group opening (dimensions :: members) closing).flat.filterMap Node.stop?)) := by
  have hmeasured := h _ (List.mem_cons_self ..)
  have hsignal : (openToken .group opening (dimensions :: members)).signal = .opens .group ∨
      (openToken .group opening (dimensions :: members)).signal = .opens .varData :=
    .inl (Node.signal_openToken ..)
  refine .of_step _ _ (some .close) rfl (by simp [Node.stop?, Node.opener, stopAt])
    (stuck_led hsignal).symm anyStuck_iff ?_
  rw [node]
  refine (settles_close hw).bind_left fun _ u _ hu => ?_
  refine (settles_leading (.groupDimensions _) (leads_inside ..)).bind fun lead v _ hv => ?_
  subst hv
  refine ((settles_inner hmeasured.2 fun v hv => ?_).bind fun element v _ hv => ?_).congr
    (iff_of_eq (or_false _))
  · refine ((hmembers hv).bind fun _ v _ hv => ?_).congr (iff_of_eq (or_false _))
    exact (settles_close hv).mono fun _ _ hend => ⟨_, hend⟩
  · subst hv
    exact settles_push hu _

end

mutual

/-- **The walk over a node** goes on unless it gets stuck on its level, or in a level inside. -/
theorem settles_node : ∀ (n : Node) {offset : Int} {w : Walker}, (∀ t ∈ n.tokens, t.IsMeasured) →
    Stands offset w → Settles (node n) w (AnyStuck offset n.flat n.levels)
      fun _ => Stands (reach offset (n.flat.filterMap Node.stop?))
  | .leaf .encoding entry, offset, w, h, hw => by
    have hmeasured := h _ (List.mem_cons_self ..)
    have hsignal : (entry.withSignal Atom.encoding.signal).token.signal ∈ typeSignals := by
      simp [typeSignals, Atom.signal]
    refine .of_shallow _ _ rfl (stopAt_member hsignal) (stuck_member hsignal).symm rfl ?_
    rw [node]
    exact (settles_member (y := pure (.primitive _ _)) hw hmeasured.1 hmeasured.2
      fun v => .of_ok rfl rfl).congr (iff_of_eq (or_false _))
  -- The walk passes over values and choices.
  | .leaf .validValue entry, offset, w, h, hw =>
    .of_shallow False none rfl rfl (by simp [Stuck, stopAt, Node.opener, Atom.signal]) rfl
      (.of_ok rfl hw)
  | .leaf .choice entry, offset, w, h, hw =>
    .of_shallow False none rfl rfl (by simp [Stuck, stopAt, Node.opener, Atom.signal]) rfl
      (.of_ok rfl hw)
  | .span .message opening parts closing, offset, w, h, hw => by
    rw [node]
    refine (settles_push hw _).bind_left fun _ u _ hu => ?_
    have hparts := settles_nodes parts (fun t ht => h t (by simp [Node.tokens, ht])) hu
    refine (hparts.bind fun _ v _ hv => ?_).congr (iff_of_eq (or_false _))
    exact (settles_close hv).bind_left fun _ _ _ hclosed => settles_push hclosed _
  | .span .field opening parts closing, offset, w, h, hw => by
    -- The type is the token behind the one of the field, be it only the one that closes the field.
    obtain ⟨type, rest, hinside⟩ :=
      List.exists_cons_of_ne_nil (l := tokensAll parts ++ [closeToken .field closing]) (by simp)
    have hsignal := Node.signal_openToken .field opening parts
    have htype := h type (by simp [Node.tokens, hinside])
    refine .of_shallow
      (Overlaps offset (openToken .field opening parts) type ∨ type.signal ∉ typeSignals)
      (some (.field (openToken .field opening parts) type)) rfl ?_ ?_ rfl ?_
    · rw [Node.stop?, Node.opener, Node.inside, hinside, stopAt, hsignal]
      rfl
    · rw [Node.opener, Node.inside, hinside, stuck_field hsignal]
    · rw [node]
      simp only [hinside, List.head_cons]
      exact settles_member hw (h _ (List.mem_cons_self ..)).1 htype.2 (settles_fieldStep _ _)
  | .span .enumeration opening parts closing, offset, w, h, hw
  | .span .choiceSet opening parts closing, offset, w, h, hw => by
    have hmeasured := h _ (List.mem_cons_self ..)
    refine .of_shallow _ _ rfl (stopAt_member ?_) (stuck_member ?_).symm rfl ?_
    · simp [typeSignals, Node.opener]
    · simp [typeSignals, Node.opener]
    · rw [node]
      exact (settles_member hw hmeasured.1 hmeasured.2 (settles_fieldStep _ _)).congr
        (or_iff_left (by simp [typeSignals]))
  | .span .composite opening parts closing, offset, w, h, hw =>
    settles_composite h hw fun hu => settles_nodes parts (fun t ht => h t (by simp [Node.tokens, ht])) hu
  | .span .group opening [] closing, offset, w, h, hw => by
    -- Without anything inside there are no dimensions: whatever has come before, this is refused.
    have hsignal : (openToken .group opening []).signal = .opens .group ∨
        (openToken .group opening []).signal = .opens .varData := .inl (Node.signal_openToken ..)
    refine .of_shallow _ (some .close) rfl (by simp [Node.stop?, Node.opener, stopAt])
      (stuck_led hsignal).symm rfl ?_
    rw [node]
    refine (settles_close hw).bind_left fun _ u _ hu => ?_
    exact (settles_leading (.groupDimensions _) (leads_inside ..)).bind_of_stuck ⟨_, rfl, by simp⟩
  | .span .group opening (dimensions :: members) closing, offset, w, h, hw =>
    settles_group h hw fun hu =>
      settles_nodes members (fun t ht => h t (by simp [Node.tokens, tokensAll, ht])) hu
  | .span .varData opening parts closing, offset, w, h, hw => by
    have hsignal : (openToken .varData opening parts).signal = .opens .group ∨
        (openToken .varData opening parts).signal = .opens .varData := .inr (Node.signal_openToken ..)
    refine .of_shallow _ (some .close) rfl (by simp [Node.stop?, Node.opener, stopAt])
      (stuck_led hsignal).symm rfl ?_
    rw [node]
    refine (settles_close hw).bind_left fun _ u _ hu => ?_
    refine ((settles_leading (.varDataLength _) (leads_inside ..)).bind fun lead v _ hv => ?_).congr
      (iff_of_eq (or_false _))
    subst hv
    exact settles_push hu _

theorem settles_nodes : ∀ (forest : List Node) {offset : Int} {w : Walker},
    (∀ t ∈ tokensAll forest, t.IsMeasured) → Stands offset w →
      Settles (nodes forest) w (AnyStuck offset (Node.flatAll forest) (Node.levelsAll forest))
        fun _ => Stands (reach offset ((Node.flatAll forest).filterMap Node.stop?))
  | [], offset, w, h, hw => .goesOn Node.not_anyStuck_nil rfl hw
  | n :: rest, offset, w, h, hw => by
    rw [nodes, Node.flatAll, Node.levelsAll, List.filterMap_append, reach_append]
    refine ((settles_node n (fun t ht => h t (List.mem_append_left _ ht)) hw).bind
      fun _ u _ hu => ?_).congr Node.anyStuck_append.symm
    exact settles_nodes rest (fun t ht => h t (List.mem_append_right _ ht)) hu

end

end Walk

/-! ## Messages -/

/-- The levels of a forest: its own, and those inside. -/
def Node.allLevels (forest : List Node) : List (List Node) :=
  flatAll forest :: levelsAll forest

/-- An inconsistency of a walk shows as such, unless it is an overlap of integers that cannot be written. -/
theorem Inconsistency.IsMetByWalk.shown {cause : Inconsistency} (h : cause.IsMetByWalk) :
    (Fault.inconsistent cause).shown = .inconsistent cause ∨
      (Fault.inconsistent cause).shown = .longInteger ∧ ∃ type field declared reached,
        cause = .overlap type field declared reached ∧
          (Numeral.isWritable declared = false ∨ Numeral.isWritable reached = false) := by
  cases h with
  | overlap type field declared reached =>
    cases hdeclared : Numeral.isWritable declared with
    | false =>
      refine .inr ⟨?_, type, field, declared, reached, rfl, .inl hdeclared⟩
      simp [Fault.shown, message?, Numeral.written?, hdeclared]
    | true =>
      cases hreached : Numeral.isWritable reached with
      | false =>
        refine .inr ⟨?_, type, field, declared, reached, rfl, .inr hreached⟩
        simp [Fault.shown, message?, Numeral.written?, hdeclared, hreached]
      | true => exact .inl (by simp [Fault.shown, message?, Numeral.written?, hdeclared, hreached])
  | fieldEncoding | groupDimensions | varDataLength => exact .inl rfl

namespace Plan

/-- The plan of a message is that of its first token, made by a walk over all of them. -/
theorem ofMessage_cons (typeName : String) (token : Token) (rest : List Token) :
    ofMessage typeName (token :: rest) =
      Walk.fresh (blankMessage typeName token) (Walk.tokens (token :: rest)) :=
  rfl

/-- The plan of a message over a forest whose counts are left to the reader. -/
theorem decided_ofMessage (typeName : String) {forest : List Node} (hderived : Node.DerivedAll forest)
    (hmeasured : ∀ t ∈ tokensAll forest, t.IsMeasured) (hne : tokensAll forest ≠ []) :
    Walk.Decided (ofMessage typeName (tokensAll forest))
      (∃ level ∈ Node.allLevels forest, Node.GetsStuck 0 level) := by
  obtain ⟨token, rest, htokens⟩ := List.exists_cons_of_ne_nil hne
  have hlength : (blankMessage typeName token).blockLength.isSome :=
    (hmeasured token (htokens ▸ List.mem_cons_self ..)).2
  rw [htokens, ofMessage_cons, ← htokens, Walk.tokens_of_derived hderived, Node.allLevels]
  rw [← Walk.anyStuck_iff]
  refine Walk.decided_fresh hlength fun v hv => ?_
  exact (Walk.settles_nodes forest hmeasured hv).mono fun _ _ hend => ⟨_, hend⟩

/-- **When a message is refused.** The entries of a list that gives no counts and leaves out no number are
those of a forest. A message of its tokens has a plan, or is refused as inconsistent, which shows, unless there
is an overlap of integers that are too long to be written. It is refused exactly if some level has a place where
a field has no type, or a group or variable data no composite, or where a field that is not a constant declares
an offset before the end of the fields in front of it. -/
theorem ofMessage_refused_iff {d : Datum} {items : List Datum} {es : List Entry} {ts : List Token}
    (hlist : d.opened = .list items) (hes : Entry.listOf 0 (Datum.leaves items) = .ok es)
    (hcounts : ∀ e ∈ es, e.counted = false) (hnumbered : ∀ e ∈ es, e.token.Numbered)
    (hts : Token.listOfDatum d = .ok ts) (hne : ts ≠ []) (typeName : String) :
    (∃ forest, es = entriesAll forest) ∧ ∀ forest, es = entriesAll forest → ts = tokensAll forest ∧
      ((∃ plan, ofMessage typeName ts = .ok plan) ∨
        ∃ cause, ofMessage typeName ts = .error (.inconsistent cause) ∧ cause.IsMetByWalk ∧
          ((Fault.inconsistent cause).shown = .inconsistent cause ∨
            (Fault.inconsistent cause).shown = .longInteger ∧ ∃ type field declared reached,
              cause = .overlap type field declared reached ∧
                (Numeral.isWritable declared = false ∨ Numeral.isWritable reached = false))) ∧
      ((∃ fault, ofMessage typeName ts = .error fault) ↔
        ∃ level ∈ Node.allLevels forest, Node.GetsStuck 0 level) := by
  have hpair : Entry.pair 0 [] [] es = .ok ts := by
    rw [← hts, Token.listOfDatum_opened hlist, hes]
    rfl
  constructor
  · obtain ⟨forest, hforest, -⟩ := Entry.pair_ok.mp hpair
    exact ⟨forest, hforest⟩
  rintro forest rfl
  obtain rfl := Except.ok.inj (hpair.symm.trans (Entry.pair_ok.mpr ⟨forest, rfl, rfl⟩))
  have hmeasured : ∀ t ∈ tokensAll forest, t.IsMeasured := by
    intro t ht
    -- A token differs from its entry in the count alone.
    have hmap := Node.map_tokensAll Token.IsMeasured
      (fun e c n _ => by unfold Entry.withCount; split <;> rfl) forest
    obtain ⟨e, he, heq⟩ := List.mem_map.mp (hmap ▸ List.mem_map_of_mem (f := Token.IsMeasured) ht)
    rw [← heq]
    exact ⟨(hnumbered e he).version, (hnumbered e he).encodedLength⟩
  refine ⟨rfl, ?_⟩
  rcases decided_ofMessage typeName (Node.derivedAll_of_entries forest hcounts) hmeasured hne with
    ⟨hfree, plan, hplan⟩ | ⟨hstuck, cause, hfault, hcause⟩
  · refine ⟨.inl ⟨plan, hplan⟩, ?_, fun hstuck => absurd hstuck hfree⟩
    rintro ⟨fault, hfault⟩
    rw [hplan] at hfault
    cases hfault
  · exact ⟨.inr ⟨cause, hfault, hcause, hcause.shown⟩, fun _ => hstuck, fun _ => ⟨_, hfault⟩⟩

end Plan

/-! ## A field that overlaps -/

/-- The mapping of the token of a field that declares an offset. -/
def fieldAt (name : String) (offset : Int) : Datum :=
  .map (Given.keyed [(.signal, .text (Signal.opens .field).name), (.name, .text name),
    (.offset, .int offset)])

theorem ofDatum_fieldAt (index : Nat) (name : String) (offset : Int) :
    Entry.ofDatum index (fieldAt name offset) =
      .ok ⟨{ signal := .opens .field, name, offset := some offset }, false⟩ := by
  rw [Entry.ofDatum, fieldAt, Given.ofDatum_keyed]
  dsimp only [bind, Except.bind]
  rw [Given.token]
  simp [Given.setAll, Given.set, Given.nothing, Given.number, Given.encoding, Given.member, Given.text,
    Given.raw, Signal.memberNamed_name, Datum.written, Datum.asText?_text, Datum.toInteger]
  rfl

/-- The items of a message with two fields of a length, and a third one that declares an offset. -/
def stampItems (length offset : Int) : List Datum :=
  [.item (.opens .message) "Stamp" none (some 9) none,
    .item (.opens .field) "first" none none none,
    .item .encoding "int64" none (some length) none,
    .item (.closes .field) "first" none none none,
    .item (.opens .field) "second" none none none,
    .item .encoding "int64" none (some length) none,
    .item (.closes .field) "second" none none none,
    fieldAt "third" offset,
    .item .encoding "int8" none (some 1) none,
    .item (.closes .field) "third" none none none,
    .item (.closes .message) "Stamp" none none none]

/-- The entry of an item without a count. -/
def plainEntry (signal : Signal) (name : String) (length : Int) : Entry :=
  ⟨{ signal, name, tokenCount := some 1, encodedLength := some length }, false⟩

/-- The field of one value. -/
def stampField (opening : Entry) (name type : String) (length : Int) : Node :=
  .span .field opening [.leaf .encoding (plainEntry .encoding type length)]
    (plainEntry (.closes .field) name 0)

/-- The message of these items. -/
def stampMessage (length offset : Int) : Node :=
  .span .message (plainEntry (.opens .message) "Stamp" 9)
    [stampField (plainEntry (.opens .field) "first" 0) "first" "int64" length,
      stampField (plainEntry (.opens .field) "second" 0) "second" "int64" length,
      stampField ⟨{ signal := .opens .field, name := "third", offset := some offset }, false⟩ "third"
        "int8" 1]
    (plainEntry (.closes .message) "Stamp" 0)

theorem listOf_stampItems (length offset : Int) : Entry.listOf 0 (Datum.leaves (stampItems length offset)) =
    .ok (entriesAll [stampMessage length offset]) := by
  have hleaves : Datum.leaves (stampItems length offset) = (stampItems length offset).map some := rfl
  rw [hleaves]
  simp only [stampItems, List.map_cons, List.map_nil, Entry.listOf, Entry.ofDatum_item, ofDatum_fieldAt]
  rfl

theorem listOfDatum_stampItems (length offset : Int) :
    Token.listOfDatum (.list (stampItems length offset)) = .ok (tokensAll [stampMessage length offset]) := by
  rw [Token.listOfDatum_opened rfl, listOf_stampItems]
  exact Entry.pair_ok.mpr ⟨_, rfl, rfl⟩

theorem stampMessage_entries (length offset : Int) :
    (∀ e ∈ entriesAll [stampMessage length offset], e.counted = false) ∧
      ∀ e ∈ entriesAll [stampMessage length offset], e.token.Numbered := by
  have hall : ∀ e ∈ entriesAll [stampMessage length offset], e.counted = false ∧ e.token.Numbered := by
    intro e he
    simp only [stampMessage, stampField, entriesAll, Node.entries, List.cons_append, List.nil_append,
      List.append_nil, List.mem_cons, List.not_mem_nil, or_false] at he
    rcases he with rfl | rfl | rfl | rfl | rfl | rfl | rfl | rfl | rfl | rfl | rfl <;>
      exact ⟨rfl, rfl, rfl, rfl, rfl, rfl, rfl⟩
  exact ⟨fun e he => (hall e he).1, fun e he => (hall e he).2⟩

/-- A third field that begins inside the second is refused. -/
theorem stampItems_refused :
    Entry.listOf 0 (Datum.leaves (stampItems 4 7)) = .ok (entriesAll [stampMessage 4 7]) ∧
      (∀ e ∈ entriesAll [stampMessage 4 7], e.counted = false) ∧
      (∀ e ∈ entriesAll [stampMessage 4 7], e.token.Numbered) ∧
      ∃ ts, Token.listOfDatum (.list (stampItems 4 7)) = .ok ts ∧ ts ≠ [] ∧
        (∃ fault, Plan.ofMessage "Stamp" ts = .error fault) ∧
        ∃ level ∈ Node.allLevels [stampMessage 4 7], Node.GetsStuck 0 level := by
  obtain ⟨hcounts, hnumbered⟩ := stampMessage_entries 4 7
  have hne : tokensAll [stampMessage 4 7] ≠ [] := List.cons_ne_nil _ _
  obtain ⟨-, hall⟩ := Plan.ofMessage_refused_iff rfl (listOf_stampItems 4 7) hcounts hnumbered
    (listOfDatum_stampItems 4 7) hne "Stamp"
  obtain ⟨-, -, hiff⟩ := hall _ rfl
  -- The first two fields end at 8.
  have hstuck : Node.GetsStuck 0 (Node.flatAll [stampMessage 4 7]) :=
    ⟨[_, _], _, [], rfl, .inl ⟨_, _, rfl, rfl, 7, rfl, by decide⟩⟩
  have hlevel : ∃ level ∈ Node.allLevels [stampMessage 4 7], Node.GetsStuck 0 level :=
    ⟨_, List.mem_cons_self .., hstuck⟩
  exact ⟨listOf_stampItems 4 7, hcounts, hnumbered, _, listOfDatum_stampItems 4 7, hne,
    hiff.mpr hlevel, hlevel⟩

/-- The greatest integer that is read and written. -/
def greatestWritable : Int :=
  Int.ofNat (10 ^ Numeral.digitLimit - 1)

/-- Whether the fault of an outcome shows as an integer that is too long. -/
def showsLongInteger (outcome : Except Fault Plan) : Bool :=
  match outcome with
  | .error fault =>
    match fault.shown with
    | .longInteger => true
    | _ => false
  | .ok _ => false

/-- **An overlap need not show as one.** Where two fields of the greatest length are in front of a third one
that begins inside them, the message of the inconsistency cannot be written. -/
theorem stampItems_long :
    Entry.listOf 0 (Datum.leaves (stampItems greatestWritable 0)) =
        .ok (entriesAll [stampMessage greatestWritable 0]) ∧
      (∀ e ∈ entriesAll [stampMessage greatestWritable 0], e.counted = false) ∧
      (∀ e ∈ entriesAll [stampMessage greatestWritable 0], e.token.Numbered) ∧
      ∃ ts, Token.listOfDatum (.list (stampItems greatestWritable 0)) = .ok ts ∧ ts ≠ [] ∧
        ∃ fault, Plan.ofMessage "Stamp" ts = .error fault ∧ fault.shown = .longInteger := by
  obtain ⟨hcounts, hnumbered⟩ := stampMessage_entries greatestWritable 0
  have hderived := Node.derivedAll_of_entries _ hcounts
  refine ⟨listOf_stampItems _ _, hcounts, hnumbered, _, listOfDatum_stampItems _ _, List.cons_ne_nil _ _, ?_⟩
  have hmessage : Plan.ofMessage "Stamp" (tokensAll [stampMessage greatestWritable 0]) =
      Walk.fresh (Plan.blankMessage "Stamp" (stampMessage greatestWritable 0).opener)
        (Walk.nodes [stampMessage greatestWritable 0]) := by
    rw [← Walk.tokens_of_derived hderived]
    rfl
  have hshows : showsLongInteger (Walk.fresh (Plan.blankMessage "Stamp"
      (stampMessage greatestWritable 0).opener) (Walk.nodes [stampMessage greatestWritable 0])) = true := by
    decide +kernel
  rw [hmessage]
  unfold showsLongInteger at hshows
  split at hshows
  · rename_i fault hfault
    refine ⟨fault, hfault, ?_⟩
    split at hshows
    · assumption
    · cases hshows
  · cases hshows

end SimpleBinary
