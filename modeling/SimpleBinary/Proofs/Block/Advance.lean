import SimpleBinary.Proofs.Block.Walk

/-!
How far a walk advances.

`Walk.Visits` are the walkers that a walk passes through. Every field of a plan was recorded in a turn
from one of them (`Plan.ofTokens_placed`). If it is a constant, the turn only records it: the offset and
the ends of the versions stay as they are (`Walk.Stays`). If it is on the wire, the turn goes over the gap
in front of it and its encoded length, and notes where it ends (`Walk.PassesOver`). Nothing is asked of the
order of the tokens, so this also holds of plans in which fields follow what closes the block.
-/

set_option autoImplicit false

namespace SimpleBinary

/-- Walkers that a walk over tokens passes through, each with the tokens that are left. -/
inductive Walk.Visits (start : Walker) (ts : List Token) : List Token → Walker → Prop
  | start : Visits start ts ts start
  | turn {token : Token} {rest : List Token} {w u : Walker} : Visits start ts (token :: rest) w →
      w.Turn token rest u → Visits start ts (Walk.after token rest) u

/-- Whether a walk records a field as a step, and advances by a number of bytes over it, the gap in front
of it apart. -/
def Walk.Advances (blank : Plan) (ts : List Token) (field type : Token) (step : Step) (bytes : Int) :
    Prop :=
  ∃ (gap : Int) (w v u : Walker) (before after : List Token), Visits { plan := blank } ts before w ∧
    w.Pads field type gap v ∧ Visits { plan := blank } ts after u ∧
      u.plan = (v.extend [step]).plan ∧ u.offset = w.offset + (gap + bytes)

namespace Walk

/-- Whether a walk records a field as a step in a turn between two walkers. -/
def Placed (blank : Plan) (ts : List Token) (field type : Token) (step : Step) (w u : Walker) : Prop :=
  ∃ token rest, Visits { plan := blank } ts (token :: rest) w ∧ w.Turn token rest u ∧
    stopAt token rest = some (.field field type) ∧ w.Records field type step ∧
    w.Places field type step u

/-- Whether a step, if it is a field, was recorded in a turn of a walk. -/
def HasTurn (blank : Plan) (ts : List Token) (s : Step) : Prop :=
  ∀ field type, s.fieldTokens? = some (field, type) → ∃ w u, Placed blank ts field type s w u

/-- Whether a walk records a step in a turn that changes nothing else: neither the offset nor the ends
of the versions. -/
def Stays (blank : Plan) (ts : List Token) (step : Step) : Prop :=
  ∃ token rest w, Visits { plan := blank } ts (token :: rest) w ∧ w.Turn token rest (w.extend [step])

/-- Whether a walk records a field as a step behind its gap, in a turn that advances over the gap and a
number of bytes, and notes this end of the field for its version. -/
def PassesOver (blank : Plan) (ts : List Token) (field type : Token) (step : Step) (bytes : Int) : Prop :=
  ∃ token rest gap w v, Visits { plan := blank } ts (token :: rest) w ∧ w.Pads field type gap v ∧
    w.Turn token rest ((v.extend [step]).advance field.version (w.offset + (gap + bytes)))

section

variable {blank : Plan} {ts : List Token} {field type : Token} {step : Step} {w u : Walker}

theorem hasTurn_of_isPlain (s : Step) (h : s.isPlain = true) : HasTurn blank ts s := by
  intro field type htokens
  rw [Step.fieldTokens?_of_isPlain h] at htokens
  cases htokens

/-- A constant neither pads nor advances. -/
theorem Placed.stays (h : Placed blank ts field type step w u) (hc : isConstant field type = true) :
    Stays blank ts step := by
  obtain ⟨token, rest, hvisits, hturn, -, -, hplaces⟩ := h
  cases hplaces with
  | constant => exact ⟨token, rest, w, hvisits, hturn⟩
  | onWire hno =>
    rw [hc] at hno
    cases hno

/-- A field on the wire has an encoded length, and the walk passes over it. -/
theorem Placed.passesOver (h : Placed blank ts field type step w u)
    (hc : isConstant field type = false) :
    ∃ length, type.encodedLength = some length ∧ PassesOver blank ts field type step length := by
  obtain ⟨token, rest, hvisits, hturn, -, -, hplaces⟩ := h
  cases hplaces with
  | constant hyes =>
    rw [hc] at hyes
    cases hyes
  | onWire _ hpads hlength => exact ⟨_, hlength, token, rest, _, w, _, hvisits, hpads, hturn⟩

theorem PassesOver.advances {bytes : Int} (h : PassesOver blank ts field type step bytes) :
    Advances blank ts field type step bytes := by
  obtain ⟨token, rest, gap, w, v, hvisits, hpads, hturn⟩ := h
  exact ⟨gap, w, v, _, _, _, hvisits, hpads, hvisits.turn hturn, rfl, rfl⟩

end

end Walk

namespace Plan

variable {blank p : Plan} {ts : List Token} {step : Step} {field type : Token}

/-- **Every field of a plan was recorded in a turn of the walk.** -/
theorem ofTokens_placed (hblank : blank.steps = []) (h : blank.ofTokens ts = .ok p)
    (hstep : step ∈ p.steps) (htokens : step.fieldTokens? = some (field, type)) :
    ∃ w u, Walk.Placed blank ts field type step w u := by
  obtain ⟨u, v, hrun, hcloses, rfl⟩ := Walk.fresh_ok h
  refine hcloses.forall_steps Walk.hasTurn_of_isPlain ?_ step hstep field type htokens
  refine (Walk.tokens_induction (P := fun left w => Walk.Visits { plan := blank } ts left w ∧
    ∀ s ∈ w.plan.steps, Walk.HasTurn blank ts s) ?_ ⟨.start, by simp [hblank]⟩ hrun).2
  rintro token rest w u ⟨hvisits, hw⟩ hturn
  refine ⟨hvisits.turn hturn, hturn.forall_steps Walk.hasTurn_of_isPlain ?_ (fun _ _ _ => nofun) hw⟩
  intro own other s hstop hrecords hplaces field type htokens
  cases hrecords.fieldTokens?_eq.symm.trans htokens
  exact ⟨w, u, token, rest, hvisits, hturn, hstop, hrecords, hplaces⟩

/-- A walk passes over each field on the wire that it records, by the encoded length of the field. -/
theorem ofTokens_passesOver (hblank : blank.steps = []) (h : blank.ofTokens ts = .ok p)
    (hstep : step ∈ p.steps) (htokens : step.fieldTokens? = some (field, type))
    (hc : Walk.isConstant field type = false) :
    ∃ length, type.encodedLength = some length ∧
      Walk.PassesOver blank ts field type step length := by
  obtain ⟨w, u, hplaced⟩ := ofTokens_placed hblank h hstep htokens
  exact hplaced.passesOver hc

/-- **A walk advances by the encoded length of each field on the wire** that it records. -/
theorem ofTokens_advances (hblank : blank.steps = []) (h : blank.ofTokens ts = .ok p)
    (hstep : step ∈ p.steps) (hwire : step.wire? = some (field, type)) {bytes : Int}
    (hbytes : type.encodedLength = some bytes) : Walk.Advances blank ts field type step bytes := by
  obtain ⟨htokens, hc⟩ := Option.filter_eq_some_iff.mp hwire
  obtain ⟨length, hlength, hpasses⟩ := ofTokens_passesOver hblank h hstep htokens (by simpa using hc)
  obtain rfl : length = bytes := Option.some.inj (hlength.symm.trans hbytes)
  exact hpasses.advances

end Plan

end SimpleBinary
