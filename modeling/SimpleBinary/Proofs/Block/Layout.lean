import SimpleBinary.Proofs.Block.Walk

/-!
Where the fields of a fixed block stand.

Read from the start, with gaps and fields that are on the wire as wide as they are, the steps of a plan
put every field where the schema wants it: at the offset that it declares, or else right behind the
field before it. Nothing overlaps, constants take no room, the consumed length is the end of the last
field, and with the padding behind it the block has its declared length (`Plan.IsLaidOut`).

The work is one induction on blocks for each of the first two: how a list splits at a field, or at a
gap, when one more field has been added behind.
-/

set_option autoImplicit false

namespace SimpleBinary

/-! ## Splits of lists -/

section

variable {α : Type}

/-- A split of a list with one more item is at that item or in front of it. -/
theorem split_concat {steps before after : List α} {last x : α}
    (h : steps ++ [last] = before ++ x :: after) :
    (after = [] ∧ x = last ∧ before = steps) ∨
      ∃ front, after = front ++ [last] ∧ steps = before ++ x :: front := by
  rcases List.eq_nil_or_concat after with rfl | ⟨front, y, rfl⟩
  · obtain ⟨rfl, hlast⟩ := List.append_inj' h rfl
    exact .inl ⟨rfl, (List.singleton_inj.mp hlast).symm, rfl⟩
  · rw [List.concat_eq_append, ← List.cons_append, ← List.append_assoc] at h
    obtain ⟨rfl, hlast⟩ := List.append_inj' h rfl
    rw [List.singleton_inj] at hlast
    exact .inr ⟨front, by rw [hlast, List.concat_eq_append], rfl⟩

/-- A split at an item that is not among the later ones is a split of the earlier ones. -/
theorem split_append {front back before after : List α} {x : α}
    (h : front ++ back = before ++ x :: after) (hx : x ∉ back) :
    ∃ between, front = before ++ x :: between ∧ after = between ++ back := by
  induction back using List.reverseRecOn generalizing after with
  | nil => exact ⟨after, by rw [← h, List.append_nil], (List.append_nil _).symm⟩
  | append_singleton back last ih =>
    rw [← List.append_assoc] at h
    rcases split_concat h with ⟨-, rfl, -⟩ | ⟨front', rfl, h'⟩
    · simp at hx
    · obtain ⟨between, hfront, rfl⟩ := ih h' fun hmem => hx (List.mem_append_left _ hmem)
      exact ⟨between, hfront, List.append_assoc ..⟩

end

/-- A gap at a position leads up to the field on the wire that stands directly behind it, at the offset
that this field declares. -/
def LeadsUp (start size : Int) (since : Option Int) (after : List Step) : Prop :=
  0 < size ∧ ∃ step rest field type, after = step :: rest ∧ step.wire? = some (field, type) ∧
    since = field.version ∧ Walk.declaredOffset field type = some (start + size)

theorem LeadsUp.append {start size : Int} {since : Option Int} {after : List Step}
    (h : LeadsUp start size since after) (more : List Step) :
    LeadsUp start size since (after ++ more) := by
  obtain ⟨hsize, step, rest, field, type, rfl, hfield⟩ := h
  exact ⟨hsize, step, rest ++ more, field, type, rfl, hfield⟩

namespace Block

variable {steps before after : List Step} {offset : Int} {ends : FieldEnds}

/-- Where a field of a block stands: at the offset that it declares, and at the end of the field before
it if it declares none. -/
theorem field_at (h : Block steps offset ends) {step : Step} {field type : Token}
    (hsteps : steps = before ++ step :: after) (hwire : step.wire? = some (field, type)) :
    (∀ declared, Walk.declaredOffset field type = some declared → written before = declared) ∧
      (Walk.declaredOffset field type = none → written before = reached before) := by
  -- The induction is on the fields of the block; a split is either at the last of them, or within the
  -- block that was there before.
  induction h generalizing after with
  | empty => simp at hsteps
  | validation _ ih =>
    rcases split_concat hsteps with ⟨-, rfl, -⟩ | ⟨front, -, hfront⟩
    · simp [Step.wire?, Step.fieldTokens?] at hwire
    · exact ih hfront
  | constant _ htokens hc ih =>
    rcases split_concat hsteps with ⟨-, rfl, -⟩ | ⟨front, -, hfront⟩
    · simp [Step.wire?_of_constant htokens hc] at hwire
    · exact ih hfront
  | field hblock hlast _ _ hdeclared ih =>
    rcases split_concat hsteps with ⟨-, rfl, rfl⟩ | ⟨front, -, hfront⟩
    · rw [hwire, Option.some.injEq, Prod.mk.injEq] at hlast
      obtain ⟨rfl, rfl⟩ := hlast
      rw [hblock.written_eq, hblock.reached_eq]
      exact ⟨fun declared hd => (hdeclared declared hd).symm, fun _ => rfl⟩
    · exact ih hfront
  | padded hblock hlast _ _ _ hdeclared ih =>
    rcases split_concat hsteps with ⟨-, rfl, rfl⟩ | ⟨front, -, hfront⟩
    · rw [hwire, Option.some.injEq, Prod.mk.injEq] at hlast
      obtain ⟨rfl, rfl⟩ := hlast
      simp [hdeclared, hblock.written_eq]
    · rcases split_concat hfront with ⟨-, rfl, -⟩ | ⟨front', -, hfront'⟩
      · simp at hwire
      · exact ih hfront'

/-- A gap of a block leads up to the field behind it. -/
theorem gap_at (h : Block steps offset ends) {size : Int} {since : Option Int} {trailing : Bool}
    (hsteps : steps = before ++ .gap size since trailing :: after) :
    trailing = false ∧ LeadsUp (written before) size since after := by
  induction h generalizing after with
  | empty => simp at hsteps
  | validation _ ih =>
    rcases split_concat hsteps with ⟨-, hgap, -⟩ | ⟨front, rfl, hfront⟩
    · cases hgap
    · exact (ih hfront).imp_right fun h => h.append _
  | constant _ htokens _ ih =>
    rcases split_concat hsteps with ⟨-, rfl, -⟩ | ⟨front, rfl, hfront⟩
    · simp [Step.fieldTokens?] at htokens
    · exact (ih hfront).imp_right fun h => h.append _
  | field _ hlast _ _ _ ih =>
    rcases split_concat hsteps with ⟨-, rfl, -⟩ | ⟨front, rfl, hfront⟩
    · simp at hlast
    · exact (ih hfront).imp_right fun h => h.append _
  | padded hblock hlast _ _ hsize hdeclared ih =>
    rcases split_concat hsteps with ⟨-, rfl, -⟩ | ⟨front, rfl, hfront⟩
    · simp at hlast
    · -- Of the two steps that are added, only the first can be the gap.
      rcases split_concat hfront with ⟨rfl, hgap, rfl⟩ | ⟨front', rfl, hfront'⟩
      · cases hgap
        exact ⟨rfl, hsize, _, [], _, _, rfl, hlast, rfl, by rw [hblock.written_eq, hdeclared]⟩
      · exact (ih hfront').imp_right fun h => (h.append _).append _

end Block

/-! ## The layout of a plan -/

/-- Where the steps of a plan with a declared block length stand in the fixed block. A position is the
number of bytes written before (`written`). -/
structure Plan.IsLaidOut (p : Plan) (blockLength : Int) : Prop where
  /-- A field that declares an offset stands there. -/
  declared {before after : List Step} {step : Step} {field type : Token} {offset : Int} :
    p.steps = before ++ step :: after → step.wire? = some (field, type) →
      Walk.declaredOffset field type = some offset → written before = offset
  /-- A field that declares none stands at the end of the field before it. -/
  packed {before after : List Step} {step : Step} {field type : Token} :
    p.steps = before ++ step :: after → step.wire? = some (field, type) →
      Walk.declaredOffset field type = none → written before = reached before
  /-- A constant takes no bytes. -/
  constant {step : Step} {field type : Token} : step ∈ p.steps →
    step.fieldTokens? = some (field, type) → Walk.isConstant field type = true → step.width = 0
  /-- No padding but the last is there for anything else than a field that is on the wire. -/
  padding {before after : List Step} {size : Int} {since : Option Int} :
    p.steps = before ++ .gap size since false :: after → LeadsUp (written before) size since after
  /-- A field ends before any later field begins. -/
  apart {before between after : List Step} {first second : Step} :
    p.steps = before ++ first :: (between ++ second :: after) → first.wire?.isSome →
      second.wire?.isSome → written before + first.width ≤ written (before ++ first :: between)
  /-- The consumed length is the end of the last field. -/
  consumed_eq : p.consumed = reached p.steps
  /-- With the padding behind its fields the block has the declared length, or that of its fields if
  this is longer. -/
  total : written p.steps = max blockLength p.consumed

section

variable {isExtensible : Bool} {offset length : Int} {known : List (Int × Int)}

theorem wire?_of_mem_closing {s : Step} (h : s ∈ closing isExtensible offset length known) :
    s.wire? = none := by
  rw [closing] at h
  rcases List.mem_append.mp h with h | h
  all_goals
    split at h
    · rw [List.mem_singleton.mp h]
      rfl
    · cases h

theorem width_nonneg_of_mem_closing {s : Step} (h : s ∈ closing isExtensible offset length known) :
    0 ≤ s.width := by
  rw [closing] at h
  rcases List.mem_append.mp h with h | h
  all_goals
    split at h
    · rw [List.mem_singleton.mp h]
      simp <;> omega
    · cases h

/-- What closes a block fills it up to the declared length. -/
theorem written_closing :
    written (closing isExtensible offset length known) = max length offset - offset := by
  rw [closing, written_append]
  have hskip : written (if isExtensible then [.extensionSkip known] else []) = 0 := by
    split <;> simp
  rw [hskip]
  split <;> simp <;> omega

end

namespace Plan.Parts

variable {p : Plan} {block tail before after : List Step} {length : Int} {known : List (Int × Int)}
  {ends : FieldEnds} {step : Step}

/-- A field that is on the wire is a step of the block. -/
theorem split_block (h : p.Parts block length known ends tail)
    (hsteps : p.steps = before ++ step :: after) (hwire : step.wire?.isSome) :
    ∃ between, block = before ++ step :: between := by
  rw [h.steps_eq, List.append_assoc] at hsteps
  obtain ⟨between, hblock, -⟩ := split_append hsteps fun hmem => by
    rcases List.mem_append.mp hmem with hmem | hmem
    · simp [wire?_of_mem_closing hmem] at hwire
    · simp [Step.wire?_of_isBeyond (h.tail_beyond _ hmem)] at hwire
  exact ⟨between, hblock⟩

/-- No step of a plan takes bytes back. -/
theorem width_nonneg (h : p.Parts block length known ends tail) : ∀ s ∈ p.steps, 0 ≤ s.width := by
  intro s hs
  rw [h.steps_eq] at hs
  rcases List.mem_append.mp hs with hs | hs
  · rcases List.mem_append.mp hs with hs | hs
    · exact h.lays.width_nonneg s hs
    · exact width_nonneg_of_mem_closing hs
  · have := Step.width_of_isBeyond (h.tail_beyond s hs)
    omega

/-- The fields of a plan end where its block does. -/
theorem reached_eq (h : p.Parts block length known ends tail) : reached p.steps = p.consumed := by
  rw [h.steps_eq, reached_append_of_none _ fun s hs => Step.wire?_of_isBeyond (h.tail_beyond s hs),
    reached_append_of_none _ fun s hs => wire?_of_mem_closing hs]
  exact h.lays.reached_eq

/-- A plan has the bytes of its block and those that fill it up. -/
theorem written_eq (h : p.Parts block length known ends tail) :
    written p.steps = max length p.consumed := by
  have htail : written tail = 0 :=
    written_eq_zero fun s hs => Step.width_of_isBeyond (h.tail_beyond s hs)
  rw [h.steps_eq, written_append, written_append, htail, h.lays.written_eq, written_closing]
  omega

/-- A gap that is not the last one is a step of the block. -/
theorem split_gap (h : p.Parts block length known ends tail) {size : Int} {since : Option Int}
    (hsteps : p.steps = before ++ .gap size since false :: after) :
    ∃ between rest, block = before ++ .gap size since false :: between ∧ after = between ++ rest := by
  rw [h.steps_eq, List.append_assoc] at hsteps
  obtain ⟨between, hblock, hafter⟩ := split_append hsteps fun hmem => by
    rcases List.mem_append.mp hmem with hmem | hmem
    · simp [closing] at hmem
    · simpa [Step.isBeyond] using h.tail_beyond _ hmem
  exact ⟨between, _, hblock, hafter⟩

end Plan.Parts

/-- **Fixed-block layout.** The plan of any tokens whose fields come before what closes the block is laid
out as they declare. -/
theorem Plan.ofTokens_isLaidOut {typeName : String} {kind : EntityKind} {blockLength : Int}
    {isExtensible : Bool} {token : Option Token} {ts : List Token} {plan : Plan}
    (h : Plan.ofTokens { typeName, kind, blockLength := some blockLength, isExtensible, token } ts =
      .ok plan)
    (hfirst : Walk.FieldsFirst ts)
    (hnonneg : ∀ t ∈ ts, ∀ length, t.encodedLength = some length → 0 ≤ length) :
    plan.IsLaidOut blockLength := by
  obtain ⟨block, length, known, ends, tail, hparts⟩ := Plan.ofTokens_parts rfl h hfirst hnonneg
  have hlength : length = blockLength := by
    have := hparts.declares.symm.trans (Plan.ofTokens_attributes h).1
    exact Option.some.inj this
  subst hlength
  -- The steps up to what closes the block lay it out; what comes behind has no bytes in it.
  constructor
  case declared =>
    intro before after step field type offset hsteps hwire
    obtain ⟨between, hblock⟩ := hparts.split_block hsteps (by simp [hwire])
    exact (hparts.lays.field_at hblock hwire).1 offset
  case packed =>
    intro before after step field type hsteps hwire
    obtain ⟨between, hblock⟩ := hparts.split_block hsteps (by simp [hwire])
    exact (hparts.lays.field_at hblock hwire).2
  case constant =>
    intro step field type _ htokens hc
    exact Step.width_of_constant htokens hc
  case padding =>
    intro before after size since hsteps
    obtain ⟨between, rest, hblock, rfl⟩ := hparts.split_gap hsteps
    exact (hparts.lays.gap_at hblock).2.append rest
  case apart =>
    intro before between after first second hsteps _ _
    have hbetween : 0 ≤ written between := written_nonneg fun s hs =>
      hparts.width_nonneg s (by rw [hsteps]; simp [hs])
    rw [written_append, written_cons]
    omega
  case consumed_eq => exact hparts.reached_eq.symm
  case total => exact hparts.written_eq

/-- An order has twenty bytes, and its fields reach sixteen of them. -/
theorem orderPlan_isLaidOut :
    ∃ plan, orderPlan = .ok plan ∧ plan.consumed = 16 ∧ plan.IsLaidOut 20 := by
  obtain ⟨plan, h, hconsumed⟩ := exists_orderPlan
  exact ⟨plan, h, hconsumed,
    Plan.ofTokens_isLaidOut h orderTokens_fieldsFirst orderTokens_nonneg⟩

end SimpleBinary
