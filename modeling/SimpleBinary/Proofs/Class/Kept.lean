import SimpleBinary.Proofs.Block.Extent
import SimpleBinary.Proofs.Class.Plans

/-!
Plans that keep to their blocks.

Inside the plan of an entity are those of its groups and member composites. Each of them is the plan of a
walk over a part of the tokens, and the length of its block is what the step that holds it has announced: to
the reader in the dimensions of a group, to the enclosing block as the length of a member
(`Plan.ofTokens_holds`). So what is said of one walk, that a plan keeps to its block exactly if its tokens
do, is said of every level (`Plan.ofTokens_keeps_iff`). A walk does not compare the two: a field may reach
beyond the declared length without an error.
-/

set_option autoImplicit false

namespace SimpleBinary

/-- The length that a step announces for the block of the plan that it holds. -/
def Step.announced? : Step → Option Int
  | .typed _ _ _ type _ => type.encodedLength
  | .group token _ _ _ => token.encodedLength
  | _ => none

/-- Whether a step is a group, whose elements newer schemas may extend. -/
def Step.isGroup : Step → Bool
  | .group .. => true
  | _ => false

/-- Whether a plan is what a walk over a part of some tokens makes of an empty one. -/
def Plan.IsWalkedIn (ts : List Token) (q : Plan) : Prop :=
  ∃ (blank : Plan) (us : List Token), us <:+: ts ∧ blank.steps = [] ∧ blank.ofTokens us = .ok q

/-- Whether the plan that a step holds is that of a walk over a part of some tokens, with a block of the
length that the step announces. -/
structure Step.HoldsPlan (ts : List Token) (s : Step) (q : Plan) : Prop where
  walked : q.IsWalkedIn ts
  announced : q.blockLength = s.announced?
  extensible : q.isExtensible = s.isGroup

/-- Whether all that a step holds is a plan of that kind. -/
def Step.Holds (ts : List Token) (s : Step) : Prop :=
  ∀ q ∈ s.inner?, s.HoldsPlan ts q

theorem Step.holds_of_isPlain {ts : List Token} (s : Step) (h : s.isPlain = true) : s.Holds ts := by
  cases s <;> simp_all [Step.isPlain, Step.Holds, Step.inner?]

theorem Step.Holds.mono {ts us : List Token} {s : Step} (h : s.Holds us) (hus : us <:+: ts) :
    s.Holds ts := by
  intro q hq
  obtain ⟨⟨blank, vs, hvs, hwalk⟩, hlength, hextensible⟩ := h q hq
  exact ⟨⟨blank, vs, hvs.trans hus, hwalk⟩, hlength, hextensible⟩

namespace Walk

variable {token : Token} {rest : List Token} {w u v : Walker}

/-- A plan of a part of the entity. -/
theorem holds_of_part {kind : EntityKind} {isExtensible : Bool} {ts us : List Token} {s : Step} {q : Plan}
    (hwalk : (w.part kind isExtensible token).ofTokens us = .ok q) (hus : us <:+: ts)
    (hinner : s.inner? = some q) (hannounced : s.announced? = token.encodedLength)
    (hgroup : s.isGroup = isExtensible) : s.Holds ts := by
  intro r hr
  rw [hinner] at hr
  obtain rfl := Option.some.inj hr
  obtain ⟨hlength, hextensible⟩ := Plan.ofTokens_attributes hwalk
  exact ⟨⟨_, us, hus, rfl, hwalk⟩, hlength.trans hannounced.symm, hextensible.trans hgroup.symm⟩

/-- What a turn records holds plans of parts of the tokens that it stands before. -/
theorem turn_holds {ts more : List Token} (hsuffix : token :: rest <:+ ts)
    (h : turn token rest w = .ok more u) (hw : ∀ s ∈ w.plan.steps, s.Holds ts) :
    ∀ s ∈ u.plan.steps, s.Holds ts := by
  have hpart (n k : Nat) : ((token :: rest).take n).drop k <:+: ts :=
    ((List.drop_suffix ..).isInfix.trans (List.take_prefix ..).isInfix).trans hsuffix.isInfix
  by_cases hs : token.signal = .opens .composite
  · obtain ⟨span, nested, -, hnested, hplaces, -⟩ := turn_composite_ok hs h
    refine hplaces.forall_steps Step.holds_of_isPlain ?_ hw
    exact holds_of_part hnested (hpart ..) rfl rfl rfl
  · refine (turn_ok h).1.forall_steps Step.holds_of_isPlain ?_ ?_ hw
    · intro field type step hstop hrecords _
      cases hrecords with
      | nested htype hself =>
        -- A composite that is a field itself stands where the walk is, which is no composite here.
        rw [← hself, field_eq_of_stopAt hstop] at htype
        exact absurd htype hs
      | _ =>
        intro q hq
        cases hq
    · intro v blockLength numInGroup span dimensions element helement
      exact holds_of_part helement (hpart ..) rfl rfl rfl

/-- A walk over tokens leaves steps that hold plans of parts of them. -/
theorem tokens_holds {ts left : List Token} (hleft : left <:+ ts) (h : tokens left w = .ok () u)
    (hw : ∀ s ∈ w.plan.steps, s.Holds ts) : ∀ s ∈ u.plan.steps, s.Holds ts := by
  induction left using stops.induct generalizing w with
  | case1 =>
    rw [tokens] at h
    obtain ⟨-, rfl⟩ := pure_ok.mp h
    exact hw
  | case2 token rest ih =>
    rw [tokens_cons] at h
    obtain ⟨more, v, hrun, h⟩ := bind_ok.mp h
    obtain ⟨-, -, rfl⟩ := turn_ok hrun
    exact ih ((after_suffix token rest).trans hleft) h (turn_holds hleft hrun hw)

end Walk

namespace Plan

variable {blank p : Plan} {ts : List Token}

/-- The plans that the steps of a plan hold are those of walks over parts of the tokens, with blocks of the
lengths that the steps announce. -/
theorem ofTokens_holds (hblank : blank.steps = []) (h : blank.ofTokens ts = .ok p) :
    ∀ s ∈ p.steps, s.Holds ts := by
  obtain ⟨u, v, hrun, hcloses, rfl⟩ := Walk.fresh_ok h
  exact hcloses.forall_steps Step.holds_of_isPlain
    (Walk.tokens_holds List.suffix_rfl hrun (by simp [hblank]))

/-- **All plans inside the plan of a walk are those of walks over parts of its tokens.** -/
theorem ofTokens_plans (hblank : blank.steps = []) (h : blank.ofTokens ts = .ok p) :
    ∀ q ∈ p.plans, q.IsWalkedIn ts := by
  refine plans_induction (P := fun q => q.IsWalkedIn ts) ?_ ⟨blank, ts, List.infix_rfl, hblank, h⟩
  rintro q ⟨blank, us, hus, hblank, hwalk⟩ s hs r hr
  exact (((ofTokens_holds hblank hwalk) s hs).mono hus r hr).walked

/-- **What is advertised is what is written, exactly if the fields fit.** At every level of a plan the
consumed length is where the fields among the tokens of the level end. The plan keeps to its block exactly if
these fields do: they end within the declared length, and none follows what closes the block. And the
declared length of a group or a member is the one that the step that holds it announces. -/
theorem ofTokens_keeps_iff (hblank : blank.steps = []) (h : blank.ofTokens ts = .ok p)
    (hnonneg : ∀ t ∈ ts, ∀ length, t.encodedLength = some length → 0 ≤ length) :
    ∀ q ∈ p.plans, (∃ (blank : Plan) (us : List Token) (length : Int), us <:+: ts ∧
      blank.steps = [] ∧ blank.ofTokens us = .ok q ∧ q.blockLength = some length ∧
      q.consumed = Walk.extent us ∧ (q.IsKept length ↔ Walk.Keeps us length)) ∧
      ∀ s ∈ q.steps, ∀ r ∈ s.inner?, r.blockLength = s.announced? := by
  intro q hq
  obtain ⟨blank, us, hus, hblank, hwalk⟩ := ofTokens_plans hblank h q hq
  obtain ⟨length, hlength, hconsumed, hkept⟩ :=
    ofTokens_isKept_iff hblank hwalk fun t ht => hnonneg t (hus.subset ht)
  refine ⟨⟨blank, us, length, hus, hblank, hwalk, hlength, hconsumed, hkept⟩, ?_⟩
  intro s hs r hr
  exact (ofTokens_holds hblank hwalk s hs r hr).announced

/-- An order keeps to its twenty bytes as its tokens do. -/
theorem orderPlan_keeps_iff : ∃ p, orderPlan = .ok p ∧ ∀ q ∈ p.plans,
    (∃ (blank : Plan) (us : List Token) (length : Int), us <:+: orderTokens ∧
      blank.steps = [] ∧ blank.ofTokens us = .ok q ∧ q.blockLength = some length ∧
      q.consumed = Walk.extent us ∧ (q.IsKept length ↔ Walk.Keeps us length)) ∧
      ∀ s ∈ q.steps, ∀ r ∈ s.inner?, r.blockLength = s.announced? := by
  obtain ⟨p, hp, -⟩ := exists_orderPlan
  exact ⟨p, hp, ofTokens_keeps_iff rfl hp orderTokens_nonneg⟩

/-- The tokens of a message that declares one byte, with a field of two. -/
def tightTokens : List Token := [
  { signal := .opens .message, name := "Tight", encodedLength := some 1, tokenCount := some 5 },
  { signal := .opens .field, name := "size", tokenCount := some 3 },
  { signal := .encoding, name := "uint16", encodedLength := some 2
    encoding := { primitive := some .uint16 } },
  { signal := .closes .field, name := "size", tokenCount := some 3 },
  { signal := .closes .message, name := "Tight", tokenCount := some 5 }]

/-- **A plan can overrun its block.** The message is walked without an error, and one byte more than it
declares is consumed and written. -/
theorem tightPlan_overruns : (∀ t ∈ tightTokens, ∃ length, t.encodedLength = some length ∧ 0 ≤ length) ∧
    ∃ p, ofMessage "Tight" tightTokens = .ok p ∧ p.blockLength = some 1 ∧ p.consumed = 2 ∧
      written p.steps = 2 := by
  refine ⟨by simp [tightTokens], ?plan, ?walk, ?length, ?consumed, ?written⟩
  case walk =>
    cbv
    rfl
  all_goals decide +kernel

end Plan

end SimpleBinary
