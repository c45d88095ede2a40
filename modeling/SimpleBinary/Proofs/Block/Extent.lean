import SimpleBinary.Proofs.Block.Layout

/-!
How far the fields among tokens reach.

Where the fields of an entity end is told by the tokens alone: a field ends behind its encoded length, from
the offset that it declares or else from the end of the field before it (`Walk.extent`). A walk keeps to
that, in whatever order the tokens come. It closes the block once, where the fields before the first group,
variable data or end marker reach (`Walk.blockExtent`), and fills it up to the declared length; fields that
follow come on top (`Plan.ofTokens_extent`). The declared length is looked at nowhere else, so a block is
kept to it exactly if the tokens do so themselves (`Plan.ofTokens_isKept_iff`).
-/

set_option autoImplicit false

namespace SimpleBinary

/-- Where the fields end behind what a walk meets, given where they end before it. -/
def Stop.behind (offset : Int) : Stop → Int
  | .field own type =>
    if Walk.isConstant own type then offset
    else (Walk.declaredOffset own type).getD offset + type.encodedLength.getD 0
  | .close => offset

namespace Walk

/-- Where the fields end that are met from an offset on. -/
def reach (offset : Int) (met : List Stop) : Int :=
  met.foldl Stop.behind offset

/-- Where the fields among tokens end. -/
def extent (ts : List Token) : Int :=
  reach 0 (stops ts)

/-- Where the fields end that come before what closes the block. -/
def blockExtent (ts : List Token) : Int :=
  reach 0 ((stops ts).takeWhile Stop.isField)

/-- Whether the fields among tokens end within a block of a length, and none that takes bytes follows what
closes it. -/
structure Keeps (ts : List Token) (length : Int) : Prop where
  within : extent ts ≤ length
  closed : extent ts = blockExtent ts

@[simp] theorem reach_nil (offset : Int) : reach offset [] = offset := rfl

theorem reach_cons (offset : Int) (met : Stop) (rest : List Stop) :
    reach offset (met :: rest) = reach (met.behind offset) rest := rfl

end Walk

/-- How a walker fills the block, with the tokens that are left: where the fields end at last, and where they
end when the block is closed. -/
structure Walker.Filling (extent blockExtent : Int) (ts : List Token) (w : Walker) : Prop where
  nonneg : ∀ t ∈ ts, ∀ length, t.encodedLength = some length → 0 ≤ length
  reaches : Walk.reach w.offset (Walk.stops ts) = extent
  opened : w.isClosed = false → written w.plan.steps = w.offset ∧
    Walk.reach w.offset ((Walk.stops ts).takeWhile Stop.isField) = blockExtent
  shut : w.isClosed = true → blockExtent ≤ w.offset ∧ ∃ length, w.plan.blockLength = some length ∧
    written w.plan.steps = max length blockExtent + (w.offset - blockExtent)

namespace Walker

variable {w u : Walker} {ts rest : List Token} {token : Token} {extent blockExtent : Int}

/-- A field that is placed moves the offset by as many bytes as the plan gets. -/
theorem Places.moves {field type : Token} {step : Step} (h : w.Places field type step u)
    (htokens : step.fieldTokens? = some (field, type)) :
    u.isClosed = w.isClosed ∧ u.plan.blockLength = w.plan.blockLength ∧
      u.offset = (Stop.field field type).behind w.offset ∧
      written u.plan.steps = written w.plan.steps + (u.offset - w.offset) := by
  cases h with
  | constant hc => simp [Stop.behind, hc, Step.width_of_constant htokens hc]
  | @onWire size length v hc hpads hlength =>
    have hwidth := Step.width_of_wire? (Step.wire?_of_not_constant htokens hc) hlength
    cases hpads with
    | undeclared hd => simp [Stop.behind, hc, hd, hlength, hwidth]
    | reached hd => simp [Stop.behind, hc, hd, hlength, hwidth]
    | gap hsize hd =>
      simp [Stop.behind, hc, hd, hlength, hwidth]
      omega

/-- No field is placed before the offset. -/
theorem Places.offset_le {field type : Token} {step : Step} (h : w.Places field type step u)
    (hnonneg : ∀ length, type.encodedLength = some length → 0 ≤ length) : w.offset ≤ u.offset := by
  cases h with
  | constant => exact Int.le_refl _
  | @onWire size length v _ hpads hlength =>
    have := hnonneg length hlength
    rw [advance_offset]
    cases hpads <;> omega

namespace Filling

theorem after (h : ∀ t ∈ token :: rest, ∀ length, t.encodedLength = some length → 0 ≤ length) :
    ∀ t ∈ Walk.after token rest, ∀ length, t.encodedLength = some length → 0 ≤ length :=
  fun t ht => h t ((Walk.after_suffix token rest).mem ht)

/-- Steps without bytes change nothing. -/
theorem extend {steps : List Step} (h : w.Filling extent blockExtent ts) (hzero : written steps = 0) :
    (w.extend steps).Filling extent blockExtent ts where
  nonneg := h.nonneg
  reaches := h.reaches
  opened hopen := by
    rw [extend_steps, written_append, hzero, Int.add_zero]
    exact h.opened hopen
  shut hclosed := by
    rw [extend_steps, written_append, hzero, Int.add_zero]
    exact h.shut hclosed

/-- Closing the block fills it up from where the fields before end. -/
theorem closes (h : w.Filling extent blockExtent ts) (hcloses : w.Closes u)
    (hnext : (Walk.stops ts).takeWhile Stop.isField = []) : u.Filling extent blockExtent ts := by
  cases hcloses with
  | already => exact h
  | @now length known hopen hlength hknown =>
    obtain ⟨hwritten, hreach⟩ := h.opened hopen
    rw [hnext, Walk.reach_nil] at hreach
    subst hreach
    refine ⟨h.nonneg, h.reaches, nofun, fun _ => ⟨Int.le_refl _, length, hlength, ?_⟩⟩
    show written (w.plan.steps ++ closing _ w.offset length known) = max length w.offset + _
    rw [written_append, written_closing, hwritten]
    show _ = max length w.offset + (w.offset - w.offset)
    omega

/-- Behind what is no field and closes nothing, there is the same to do. -/
theorem pass (h : w.Filling extent blockExtent (token :: rest)) (hstop : Walk.stopAt token rest = none) :
    w.Filling extent blockExtent (Walk.after token rest) := by
  have hstops : Walk.stops (token :: rest) = Walk.stops (Walk.after token rest) := by
    rw [Walk.stops_cons, hstop, Option.toList_none, List.nil_append]
  exact ⟨after h.nonneg, hstops ▸ h.reaches, hstops ▸ h.opened, h.shut⟩

/-- What closes the block, once it is closed, is passed like that, too. -/
theorem passClosed (h : w.Filling extent blockExtent (token :: rest)) (hclosed : w.isClosed = true)
    (hstop : Walk.stopAt token rest = some .close) :
    w.Filling extent blockExtent (Walk.after token rest) := by
  have hreaches := h.reaches
  rw [Walk.stops_cons, hstop] at hreaches
  exact ⟨after h.nonneg, hreaches, fun hopen => by simp [hclosed] at hopen, h.shut⟩

/-- A turn over what closes the block. -/
theorem close (h : w.Filling extent blockExtent (token :: rest)) (hcloses : w.Closes u)
    (hstop : Walk.stopAt token rest = some .close) :
    u.Filling extent blockExtent (Walk.after token rest) := by
  have hnext : (Walk.stops (token :: rest)).takeWhile Stop.isField = [] := by
    rw [Walk.stops_cons, hstop]
    rfl
  exact (h.closes hcloses hnext).passClosed hcloses.isClosed hstop

/-- A field fills the block up to its end. -/
theorem places {field type : Token} {step : Step} (h : w.Filling extent blockExtent (token :: rest))
    (hstop : Walk.stopAt token rest = some (.field field type)) (hrecords : w.Records field type step)
    (hplaces : w.Places field type step u) : u.Filling extent blockExtent (Walk.after token rest) := by
  obtain ⟨hstill, hlength, hoffset, hwritten⟩ := hplaces.moves hrecords.fieldTokens?_eq
  have hle := hplaces.offset_le (h.nonneg type (Walk.type_mem_of_stopAt hstop))
  have hstops : Walk.stops (token :: rest) = .field field type :: Walk.stops (Walk.after token rest) := by
    rw [Walk.stops_cons, hstop]
    rfl
  refine ⟨after h.nonneg, ?_, fun hopen => ?_, fun hclosed => ?_⟩
  · rw [hoffset, ← Walk.reach_cons, ← hstops]
    exact h.reaches
  · obtain ⟨hall, hreach⟩ := h.opened (hstill ▸ hopen)
    refine ⟨by omega, ?_⟩
    rw [hstops] at hreach
    rw [hoffset]
    exact hreach
  · obtain ⟨hbefore, length, hblock, hall⟩ := h.shut (hstill ▸ hclosed)
    exact ⟨by omega, length, hlength.trans hblock, by omega⟩

/-- **Every turn keeps on filling the block.** -/
theorem turn (h : w.Filling extent blockExtent (token :: rest)) (hturn : w.Turn token rest u) :
    u.Filling extent blockExtent (Walk.after token rest) := by
  have hbeyond {s : Step} (hs : s.isBeyond = true) : written [s] = 0 := by
    rw [written_cons, Step.width_of_isBeyond hs]
    rfl
  cases hturn with
  | messageOpens hs => exact (h.pass (by rw [Walk.stopAt, hs])).extend (hbeyond rfl)
  | messageCloses hs hcloses =>
    exact (h.close hcloses (by rw [Walk.stopAt, hs])).extend (hbeyond rfl)
  | groupCloses hs hcloses => exact h.close hcloses (by rw [Walk.stopAt, hs])
  | group hs hcloses => exact (h.close hcloses (by rw [Walk.stopAt, hs])).extend (hbeyond rfl)
  | varData hs hcloses => exact (h.close hcloses (by rw [Walk.stopAt, hs])).extend (hbeyond rfl)
  | passes _ hstop => exact h.pass hstop
  | field hstop hrecords hplaces => exact h.places hstop hrecords hplaces

end Filling

end Walker

namespace Plan

/-- Whether a plan keeps to its block: its fields end within the declared length, and as many bytes are
written. -/
structure IsKept (p : Plan) (length : Int) : Prop where
  within : p.consumed ≤ length
  total : written p.steps = length

instance (p : Plan) (length : Int) : Decidable (p.IsKept length) :=
  decidable_of_iff (p.consumed ≤ length ∧ written p.steps = length)
    ⟨fun ⟨within, total⟩ => ⟨within, total⟩, fun ⟨within, total⟩ => ⟨within, total⟩⟩

variable {blank p : Plan} {ts : List Token}

/-- **What a plan consumes and writes** is told by its tokens: the consumed length is where the fields end,
and the block is filled up to the declared length where it is closed, with what follows on top. -/
theorem ofTokens_extent (hblank : blank.steps = []) (h : blank.ofTokens ts = .ok p)
    (hnonneg : ∀ t ∈ ts, ∀ length, t.encodedLength = some length → 0 ≤ length) :
    ∃ length, p.blockLength = some length ∧ p.consumed = Walk.extent ts ∧
      Walk.blockExtent ts ≤ Walk.extent ts ∧
      written p.steps =
        max length (Walk.blockExtent ts) + (Walk.extent ts - Walk.blockExtent ts) := by
  obtain ⟨u, v, hrun, hcloses, rfl⟩ := Walk.fresh_ok h
  have hstart : ({ plan := blank } : Walker).Filling (Walk.extent ts) (Walk.blockExtent ts) ts :=
    ⟨hnonneg, rfl, fun _ => ⟨by rw [hblank]; rfl, rfl⟩, nofun⟩
  have hend : u.Filling (Walk.extent ts) (Walk.blockExtent ts) [] :=
    Walk.tokens_induction (P := fun ts w => w.Filling _ _ ts) Walker.Filling.turn hstart hrun
  have hclosed := hend.closes hcloses (by rw [Walk.stops]; rfl)
  -- Nothing is met any more, so the offset is where the fields end.
  have hoffset : v.offset = Walk.extent ts := by
    have := hclosed.reaches
    rwa [Walk.stops, Walk.reach_nil] at this
  obtain ⟨hle, length, hlength, hwritten⟩ := hclosed.shut hcloses.isClosed
  rw [hoffset] at hle hwritten
  exact ⟨length, hlength, hoffset, hle, hwritten⟩

/-- **A plan keeps to its block exactly if its tokens do.** -/
theorem ofTokens_isKept_iff (hblank : blank.steps = []) (h : blank.ofTokens ts = .ok p)
    (hnonneg : ∀ t ∈ ts, ∀ length, t.encodedLength = some length → 0 ≤ length) :
    ∃ length, p.blockLength = some length ∧ p.consumed = Walk.extent ts ∧
      (p.IsKept length ↔ Walk.Keeps ts length) := by
  obtain ⟨length, hlength, hconsumed, hle, hwritten⟩ := ofTokens_extent hblank h hnonneg
  refine ⟨length, hlength, hconsumed, fun hkept => ?_, fun hkeeps => ?_⟩
  · have := hkept.within
    have := hkept.total
    exact ⟨by omega, by omega⟩
  · have := hkeeps.within
    have := hkeeps.closed
    exact ⟨by omega, by omega⟩

end Plan

end SimpleBinary
