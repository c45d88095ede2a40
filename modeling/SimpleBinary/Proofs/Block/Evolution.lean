import SimpleBinary.Proofs.Block.Discard
import SimpleBinary.Proofs.Block.Layout

/-!
Where an older or newer message lands.

A message of another version has a block of its own length, in which the fields of later versions and
the padding in front of them are missing. If no field is of an earlier version than a field before it,
then what is there is a front part of the block as it is written now: every field that is there is read
at the position at which it is written, what is read before the extension skip is what the version
knows, and with the skip the block has the length that was received (`Plan.Lands`).

Two inductions on blocks carry this. Fields that are all there are read as they are written
(`Block.taken_eq_width`), and what is read of any version ends where the fields of this version and the
earlier ones end (`Block.takenBy_eq_upTo`).
-/

set_option autoImplicit false

namespace SimpleBinary

/-! ## What is read -/

/-- The number of bytes that steps take: the position at which the step after them is read. -/
def takenBy (version received : Int) : List Step → Int
  | [] => 0
  | s :: rest => s.taken version received + takenBy version received rest

/-- The version of a field that is on the wire. -/
def Step.since? (s : Step) : Option Int :=
  s.wire?.bind fun tokens => tokens.1.version

/-- The versions of the fields that are on the wire. -/
def sinces (steps : List Step) : List Int :=
  steps.filterMap Step.since?

section

variable {version received : Int}

@[simp] theorem takenBy_nil : takenBy version received [] = 0 := rfl

@[simp] theorem takenBy_cons (s : Step) (rest : List Step) :
    takenBy version received (s :: rest) = s.taken version received + takenBy version received rest :=
  rfl

@[simp] theorem takenBy_append (a b : List Step) :
    takenBy version received (a ++ b) = takenBy version received a + takenBy version received b := by
  induction a with
  | nil => simp
  | cons s rest ih => rw [List.cons_append, takenBy_cons, takenBy_cons, ih, Int.add_assoc]

theorem takenBy_eq_zero {steps : List Step} (h : ∀ s ∈ steps, s.taken version received = 0) :
    takenBy version received steps = 0 := by
  induction steps with
  | nil => rfl
  | cons s rest ih =>
    rw [takenBy_cons, h s (List.mem_cons_self ..), ih fun t ht => h t (List.mem_cons_of_mem _ ht)]
    rfl

/-- Steps that take as many bytes as they have are read as they are written. -/
theorem takenBy_eq_written {steps : List Step}
    (h : ∀ s ∈ steps, s.taken version received = s.width) :
    takenBy version received steps = written steps := by
  induction steps with
  | nil => rfl
  | cons s rest ih =>
    rw [takenBy_cons, written_cons, h s (List.mem_cons_self ..),
      ih fun t ht => h t (List.mem_cons_of_mem _ ht)]

theorem filterMap_singleton {α β : Type} (f : α → Option β) (a : α) :
    [a].filterMap f = (f a).toList := by
  cases h : f a with
  | none => rw [List.filterMap_cons_none h, List.filterMap_nil, Option.toList_none]
  | some b => rw [List.filterMap_cons_some h, List.filterMap_nil, Option.toList_some]

@[simp] theorem sinces_nil : sinces [] = [] := rfl

@[simp] theorem sinces_append (a b : List Step) : sinces (a ++ b) = sinces a ++ sinces b := by
  simp [sinces]

namespace Step

theorem since?_of_wire? {s : Step} {field type : Token} (h : s.wire? = some (field, type)) :
    s.since? = field.version := by
  rw [since?, h, Option.bind_some]

theorem since?_of_not_wire {s : Step} (h : s.wire? = none) : s.since? = none := by
  rw [since?, h, Option.bind_none]

theorem taken_of_wire? {s : Step} {field type : Token} {length : Int}
    (h : s.wire? = some (field, type)) (hlength : type.encodedLength = some length) :
    s.taken version received = if field.version.any (· ≤ version) then length else 0 := by
  cases s <;> simp_all [taken]

theorem taken_of_constant {s : Step} {field type : Token}
    (h : s.fieldTokens? = some (field, type)) (hc : Walk.isConstant field type = true) :
    s.taken version received = 0 := by
  have := wire?_of_constant h hc
  cases s <;> simp_all [taken, fieldTokens?]

theorem taken_of_isBeyond {s : Step} (h : s.isBeyond = true) : s.taken version received = 0 := by
  cases s <;> simp_all [isBeyond, taken, wire?, fieldTokens?]

/-- A gap goes with the field that it leads up to. -/
theorem taken_gap (hversion : 0 ≤ version) (size since : Int) :
    (Step.gap size (some since) false).taken version received =
      if since ≤ version then size else 0 := by
  by_cases hzero : since = 0
  · simp [taken, hzero, hversion]
  · simp [taken, hzero, Option.filter]

end Step

theorem sinces_concat_of_none {s : Step} (steps : List Step) (h : s.wire? = none) :
    sinces (steps ++ [s]) = sinces steps := by
  rw [sinces_append, sinces, sinces, filterMap_singleton, Step.since?_of_not_wire h,
    Option.toList_none, List.append_nil]

theorem sinces_concat_of_some {s : Step} {field type : Token} {since : Int} (steps : List Step)
    (h : s.wire? = some (field, type)) (hsince : field.version = some since) :
    sinces (steps ++ [s]) = sinces steps ++ [since] := by
  rw [sinces_append, sinces, sinces, filterMap_singleton, Step.since?_of_wire? h, hsince,
    Option.toList_some]

/-- Versions stay in order behind one that is not before any of them. -/
theorem pairwise_le_concat {versions : List Int} {since : Int}
    (h : (versions ++ [since]).Pairwise (· ≤ ·)) :
    versions.Pairwise (· ≤ ·) ∧ ∀ v ∈ versions, v ≤ since := by
  simpa [List.pairwise_append] using h

end

/-! ## What is read of a block -/

namespace Block

variable {steps before after : List Step} {offset version received : Int} {ends : FieldEnds}

theorem zero_mem (h : Block steps offset ends) : some 0 ∈ ends.map Prod.fst := by
  induction h with
  | empty => exact List.mem_cons_self ..
  | validation _ ih => exact ih
  | constant _ _ _ ih => exact ih
  | field _ _ _ _ _ ih => exact FieldEnds.mem_keys_record.mpr (.inr ih)
  | padded _ _ _ _ _ _ ih => exact FieldEnds.mem_keys_record.mpr (.inr ih)

theorem ends_nonneg (h : Block steps offset ends) : ∀ entry ∈ ends, 0 ≤ entry.2 := by
  induction h with
  | empty => simp
  | validation _ ih => exact ih
  | constant _ _ _ ih => exact ih
  | field _ _ _ _ _ ih => exact FieldEnds.record_nonneg ih
  | padded _ _ _ _ _ _ ih => exact FieldEnds.record_nonneg ih

variable (received) in
/-- Fields that are all there are read as they are written. -/
theorem takenBy_eq_written (h : Block steps offset ends)
    (hdated : ends.Dated) (hversion : 0 ≤ version)
    (hthere : ∀ since ∈ sinces steps, since ≤ version) :
    takenBy version received steps = written steps := by
  induction h with
  | empty => rfl
  | validation _ ih =>
    have := ih hdated fun since hs => hthere since (by simp [hs])
    simp [this, Step.taken, Step.width, Step.wire?, Step.fieldTokens?]
  | constant _ htokens hc ih =>
    have := ih hdated fun since hs => hthere since (by simp [hs])
    simp [this, Step.taken_of_constant htokens hc, Step.width_of_constant htokens hc]
  | field _ hwire hlength _ _ ih =>
    obtain ⟨⟨u, hu⟩, hdated'⟩ := FieldEnds.dated_record.mp hdated
    rw [sinces_concat_of_some _ hwire hu] at hthere
    have hle : u ≤ version := hthere u (by simp)
    have := ih hdated' fun since hs => hthere since (by simp [hs])
    simp [this, Step.taken_of_wire? hwire hlength, Step.width_of_wire? hwire hlength, hu, hle]
  | padded _ hwire hlength _ _ _ ih =>
    obtain ⟨⟨u, hu⟩, hdated'⟩ := FieldEnds.dated_record.mp hdated
    rw [sinces_concat_of_some _ hwire hu] at hthere
    have hle : u ≤ version := hthere u (by simp)
    have := ih hdated' fun since hs => hthere since (by simp [hs])
    simp [this, Step.taken_of_wire? hwire hlength, Step.width_of_wire? hwire hlength,
      Step.taken_gap hversion, hu, hle]

/-- **What is read of a block** ends where the fields of the version and of earlier ones end. -/
theorem takenBy_eq_upTo (h : Block steps offset ends) (hdated : ends.Dated) (hversion : 0 ≤ version)
    (hsorted : (sinces steps).Pairwise (· ≤ ·)) :
    takenBy version received steps = ends.upTo version := by
  induction h with
  | empty => simp [FieldEnds.upTo]
  | validation _ ih =>
    rw [sinces_concat_of_none _ rfl] at hsorted
    simp [ih hdated hsorted, Step.taken, Step.wire?, Step.fieldTokens?]
  | constant _ htokens hc ih =>
    rw [sinces_concat_of_none _ (Step.wire?_of_constant htokens hc)] at hsorted
    simp [ih hdated hsorted, Step.taken_of_constant htokens hc]
  | @field steps offset length _ _ _ _ hblock hwire hlength hnonneg _ ih =>
    obtain ⟨⟨u, hu⟩, hdated'⟩ := FieldEnds.dated_record.mp hdated
    rw [sinces_concat_of_some _ hwire hu] at hsorted
    obtain ⟨hbefore, hlast⟩ := pairwise_le_concat hsorted
    -- A field that is newer than the version is not read, and does not count for it either.
    have hupTo := ih hdated' hbefore
    rw [FieldEnds.upTo_record, takenBy_append, hupTo, hu]
    by_cases hle : u ≤ version
    · -- All fields before are there as well, so they are read up to the offset.
      have := hblock.takenBy_eq_written received hdated' hversion
        fun v hv => Int.le_trans (hlast v hv) hle
      rw [hblock.written_eq, hupTo] at this
      simp [Step.taken_of_wire? hwire hlength, hu, hle, this]
      omega
    · simp [Step.taken_of_wire? hwire hlength, hu, hle]
  | @padded steps offset size length _ _ _ _ hblock hwire hlength hnonneg hsize _ ih =>
    obtain ⟨⟨u, hu⟩, hdated'⟩ := FieldEnds.dated_record.mp hdated
    rw [sinces_concat_of_some _ hwire hu, sinces_concat_of_none _ rfl] at hsorted
    obtain ⟨hbefore, hlast⟩ := pairwise_le_concat hsorted
    have hupTo := ih hdated' hbefore
    rw [FieldEnds.upTo_record, takenBy_append, takenBy_append, hupTo, hu]
    by_cases hle : u ≤ version
    · have := hblock.takenBy_eq_written received hdated' hversion
        fun v hv => Int.le_trans (hlast v hv) hle
      rw [hblock.written_eq, hupTo] at this
      simp [Step.taken_of_wire? hwire hlength, Step.taken_gap hversion, hu, hle, this]
      omega
    · simp [Step.taken_of_wire? hwire hlength, Step.taken_gap hversion, hu, hle]

/-- **A field that is there is read where it is written.** -/
theorem takenBy_eq_written_before (h : Block steps offset ends) (hdated : ends.Dated)
    (hversion : 0 ≤ version) (hsorted : (sinces steps).Pairwise (· ≤ ·)) {step : Step}
    {field type : Token} (hsteps : steps = before ++ step :: after)
    (hstep : step.wire? = some (field, type)) (hthere : field.version.any (· ≤ version)) :
    takenBy version received before = written before := by
  -- The field is the last of the block, or within the block that was there before.
  induction h generalizing after with
  | empty => simp at hsteps
  | validation _ ih =>
    rw [sinces_concat_of_none _ rfl] at hsorted
    rcases split_concat hsteps with ⟨-, rfl, -⟩ | ⟨front, -, hfront⟩
    · simp [Step.wire?, Step.fieldTokens?] at hstep
    · exact ih hdated hsorted hfront
  | constant _ htokens hc ih =>
    have hwire := Step.wire?_of_constant htokens hc
    rw [sinces_concat_of_none _ hwire] at hsorted
    rcases split_concat hsteps with ⟨-, rfl, -⟩ | ⟨front, -, hfront⟩
    · simp [hwire] at hstep
    · exact ih hdated hsorted hfront
  | field hblock hwire _ _ _ ih =>
    obtain ⟨⟨u, hu⟩, hdated'⟩ := FieldEnds.dated_record.mp hdated
    rw [sinces_concat_of_some _ hwire hu] at hsorted
    obtain ⟨hbefore, hlast⟩ := pairwise_le_concat hsorted
    rcases split_concat hsteps with ⟨-, rfl, rfl⟩ | ⟨front, -, hfront⟩
    · rw [hstep, Option.some.injEq, Prod.mk.injEq] at hwire
      obtain ⟨rfl, rfl⟩ := hwire
      -- All fields before are of no later version, so they are there as well.
      have hle : u ≤ version := by simpa [hu] using hthere
      exact hblock.takenBy_eq_written received hdated' hversion fun v hv => Int.le_trans (hlast v hv) hle
    · exact ih hdated' hbefore hfront
  | @padded steps _ size _ _ _ _ _ hblock hwire _ _ _ _ ih =>
    obtain ⟨⟨u, hu⟩, hdated'⟩ := FieldEnds.dated_record.mp hdated
    rw [sinces_concat_of_some _ hwire hu, sinces_concat_of_none _ rfl] at hsorted
    obtain ⟨hbefore, hlast⟩ := pairwise_le_concat hsorted
    rcases split_concat hsteps with ⟨-, rfl, rfl⟩ | ⟨front, -, hfront⟩
    · rw [hstep, Option.some.injEq, Prod.mk.injEq] at hwire
      obtain ⟨rfl, rfl⟩ := hwire
      have hle : u ≤ version := by simpa [hu] using hthere
      have := hblock.takenBy_eq_written received hdated' hversion
        fun v hv => Int.le_trans (hlast v hv) hle
      simp [this, hu, Step.taken_gap hversion, hle]
    · rcases split_concat hfront with ⟨-, rfl, -⟩ | ⟨front', -, hfront'⟩
      · simp at hstep
      · exact ih hdated' hbefore hfront'

/-- A block does not hold the skip that closes it. -/
theorem extensionSkip_not_mem (h : Block steps offset ends) (known : List (Int × Int)) :
    .extensionSkip known ∉ steps := by
  induction h with
  | empty => simp
  | validation _ ih => simp [ih]
  | constant _ htokens _ ih =>
    intro hmem
    rcases List.mem_append.mp hmem with hmem | hmem
    · exact ih hmem
    · rw [← List.mem_singleton.mp hmem] at htokens
      cases htokens
  | field _ hwire _ _ _ ih =>
    intro hmem
    rcases List.mem_append.mp hmem with hmem | hmem
    · exact ih hmem
    · rw [← List.mem_singleton.mp hmem] at hwire
      cases hwire
  | padded _ hwire _ _ _ _ ih =>
    intro hmem
    rcases List.mem_append.mp hmem with hmem | hmem
    · simp [ih] at hmem
    · rw [← List.mem_singleton.mp hmem] at hwire
      cases hwire

end Block

/-! ## Versions of a walk -/

namespace Walker

variable {w u : Walker} {token field type : Token} {rest : List Token} {step : Step}

theorem Closes.sinces_eq (h : w.Closes u) : sinces u.plan.steps = sinces w.plan.steps := by
  cases h with
  | already => rfl
  | now =>
    have hnone {length : Int} {known : List (Int × Int)} :
        sinces (closing w.plan.isExtensible w.offset length known) = [] :=
      List.filterMap_eq_nil_iff.mpr fun s hs => Step.since?_of_not_wire (wire?_of_mem_closing hs)
    rw [extend_steps, sinces_append, hnone, List.append_nil]

theorem Pads.sinces_eq {v : Walker} {size : Int} (h : w.Pads field type size v) :
    sinces v.plan.steps = sinces w.plan.steps := by
  cases h with
  | gap => exact sinces_concat_of_none _ rfl
  | _ => rfl

theorem Places.sinces_eq (h : w.Places field type step u)
    (htokens : step.fieldTokens? = some (field, type)) :
    sinces u.plan.steps = sinces w.plan.steps ++ (Stop.since? (.field field type)).toList := by
  cases h with
  | constant hc =>
    rw [extend_steps, sinces_concat_of_none _ (Step.wire?_of_constant htokens hc), Stop.since?,
      if_pos hc, Option.toList_none, List.append_nil]
  | onWire hc hpads =>
    have hsince := Step.since?_of_wire? (Step.wire?_of_not_constant htokens hc)
    have hlast : sinces [step] = field.version.toList := by
      rw [sinces, filterMap_singleton, hsince]
    rw [advance_plan, extend_steps, sinces_append, hpads.sinces_eq, hlast, Stop.since?, hc]
    rfl

/-- A turn adds the version of what it meets. -/
theorem Turn.sinces_eq (h : w.Turn token rest u) :
    sinces u.plan.steps =
      sinces w.plan.steps ++ (Walk.stopAt token rest).toList.filterMap Stop.since? := by
  cases h with
  | messageOpens hs =>
    simp [Walk.stopAt, hs, sinces_concat_of_none _ (s := .encodeValidation) rfl]
  | messageCloses hs hcloses =>
    simp [Walk.stopAt, hs, sinces_concat_of_none _ (s := .decodeValidation) rfl, hcloses.sinces_eq,
      Stop.since?]
  | groupCloses hs hcloses => simp [Walk.stopAt, hs, hcloses.sinces_eq, Stop.since?]
  | @group v blockLength numInGroup _ _ element hs hcloses =>
    have := sinces_concat_of_none v.plan.steps (s := .group token blockLength numInGroup element) rfl
    simp [Walk.stopAt, hs, this, hcloses.sinces_eq, Stop.since?]
  | @varData v length data hs hcloses =>
    have := sinces_concat_of_none v.plan.steps (s := .varData token length data) rfl
    simp [Walk.stopAt, hs, this, hcloses.sinces_eq, Stop.since?]
  | passes _ hstop => simp [hstop]
  | field hstop hrecords hplaces =>
    have htokens := hrecords.fieldTokens?_eq
    rw [hstop, hplaces.sinces_eq htokens, Option.toList_some, filterMap_singleton]

end Walker

/-- **The fields of a plan have the versions of the tokens**, in their order. -/
theorem Plan.ofTokens_sinces {blank plan : Plan} {ts : List Token} (hblank : blank.steps = [])
    (h : blank.ofTokens ts = .ok plan) : sinces plan.steps = Walk.sinceVersions ts := by
  obtain ⟨u, v, hwalk, hcloses, rfl⟩ := Walk.fresh_ok h
  -- What has been met and what is still to be met stay the same together.
  have hend : sinces u.plan.steps ++ Walk.sinceVersions [] = Walk.sinceVersions ts := by
    refine Walk.tokens_induction
      (P := fun left w => sinces w.plan.steps ++ Walk.sinceVersions left = Walk.sinceVersions ts)
      ?_ ?_ hwalk
    · intro token rest w u heq hturn
      rw [hturn.sinces_eq, List.append_assoc, ← heq, Walk.sinceVersions, Walk.sinceVersions,
        Walk.stops_cons, List.filterMap_append]
    · rw [hblank]
      rfl
  rw [← hend, ← hcloses.sinces_eq]
  simp [Walk.sinceVersions, Walk.stops]

/-! ## Landing -/

/-- Where a message of a version lands, with a block of the given length. A position is the number of
bytes that are read before (`takenBy`), or written before (`written`). -/
structure Plan.Lands (p : Plan) (version received : Int) : Prop where
  /-- A field that is there is read where it is written. -/
  aligned {before after : List Step} {step : Step} {field type : Token} :
    p.steps = before ++ step :: after → step.wire? = some (field, type) →
      field.version.any (· ≤ version) → takenBy version received before = written before
  /-- There is an extension skip. -/
  skips : ∃ known, .extensionSkip known ∈ p.steps
  /-- What the version knows is what is read before the skip. -/
  known_eq {before after : List Step} {known : List (Int × Int)} :
    p.steps = before ++ .extensionSkip known :: after →
      knownAt version known = some (takenBy version received before)
  /-- The block takes the length that was received, or what the version knows if this is more. -/
  total {before after : List Step} {known : List (Int × Int)} :
    p.steps = before ++ .extensionSkip known :: after →
      takenBy version received p.steps = max received (takenBy version received before)
  /-- The source of a gap or of the skip throws away what the step takes. -/
  rendered {step : Step} {owner : String} {bodies : Bodies} {names : Code.Numbers} :
    step ∈ p.steps → step.isThrownAway = true →
      (step.bodies owner p.isExtensible).outcome = .ok bodies →
      names "acting_version" = some version → names "block_length" = some received →
      ∃ after, Code.discardedBy? names bodies.decode = some (after, step.taken version received)

namespace Plan.Parts

variable {p : Plan} {block tail before after : List Step} {length version received : Int}
  {known : List (Int × Int)} {ends : FieldEnds}

variable (received) in
/-- A version knows what is read of its block. -/
theorem knownAt_eq (h : p.Parts block length known ends tail) (hextensible : p.isExtensible = true)
    (hsorted : (sinces p.steps).Pairwise (· ≤ ·)) (hversion : 0 ≤ version) :
    ends.Dated ∧ (sinces block).Pairwise (· ≤ ·) ∧
      knownAt version known = some (takenBy version received block) := by
  have hknown := h.knows hextensible
  have hdated := FieldEnds.dated_of_knownLengths hknown
  rw [h.steps_eq, sinces_append, sinces_append] at hsorted
  have hblock := (List.pairwise_append.mp (List.pairwise_append.mp hsorted).1).1
  refine ⟨hdated, hblock, ?_⟩
  rw [h.lays.takenBy_eq_upTo hdated hversion hblock]
  exact FieldEnds.knownAt_knownLengths hknown h.lays.zero_mem h.lays.ends_nonneg hversion

variable (version received) in
/-- The skip comes behind the block and the padding that is left to it. -/
theorem split_skip (h : p.Parts block length known ends tail) (hextensible : p.isExtensible = true)
    {found : List (Int × Int)} (hsteps : p.steps = before ++ .extensionSkip found :: after) :
    found = known ∧ after = tail ∧
      takenBy version received before = takenBy version received block := by
  let padding : List Step :=
    if p.consumed < length then [.gap (length - p.consumed) (some 0) true] else []
  have hpadding : ∀ s ∈ padding, s.taken version received = 0 ∧ s ≠ .extensionSkip found := by
    intro s hs
    unfold padding at hs
    split at hs
    · obtain rfl := List.mem_singleton.mp hs
      exact ⟨rfl, by simp⟩
    · cases hs
  have hall : p.steps = (block ++ padding ++ [.extensionSkip known]) ++ tail := by
    simp only [h.steps_eq, closing, hextensible, if_pos, padding, List.append_assoc]
  rw [hall] at hsteps
  obtain ⟨between, hfront, rfl⟩ := split_append hsteps fun hmem => by
    simpa [Step.isBeyond] using h.tail_beyond _ hmem
  rcases split_concat hfront with ⟨rfl, hskip, rfl⟩ | ⟨rest, -, hrest⟩
  · cases hskip
    have := takenBy_eq_zero fun s hs => (hpadding s hs).1
    exact ⟨rfl, rfl, by rw [takenBy_append, this, Int.add_zero]⟩
  · -- Neither the block nor the padding holds a skip.
    have hmem : Step.extensionSkip found ∈ block ++ padding := by simp [hrest]
    rcases List.mem_append.mp hmem with hmem | hmem
    · exact absurd hmem (h.lays.extensionSkip_not_mem found)
    · exact absurd rfl (hpadding _ hmem).2

end Plan.Parts

/-- **Schema evolution.** Where fields come before what closes the block, and none is of an earlier
version than a field before it, a message of any version and with a block of any length lands. -/
theorem Plan.ofTokens_lands {typeName : String} {kind : EntityKind} {blockLength : Option Int}
    {token : Option Token} {ts : List Token} {plan : Plan} {version : Int} (received : Int)
    (h : Plan.ofTokens { typeName, kind, blockLength, isExtensible := true, token } ts = .ok plan)
    (hfirst : Walk.FieldsFirst ts)
    (hnonneg : ∀ t ∈ ts, ∀ length, t.encodedLength = some length → 0 ≤ length)
    (hsorted : (Walk.sinceVersions ts).Pairwise (· ≤ ·)) (hversion : 0 ≤ version) :
    plan.Lands version received := by
  -- The steps are those of the fields, what closes the block, and a tail behind the block.
  obtain ⟨block, length, known, ends, tail, hparts⟩ := Plan.ofTokens_parts rfl h hfirst hnonneg
  have hextensible : plan.isExtensible = true := (Plan.ofTokens_attributes h).2
  rw [← Plan.ofTokens_sinces rfl h] at hsorted
  obtain ⟨hdated, hblock, hknown⟩ :=
    hparts.knownAt_eq received hextensible hsorted hversion
  constructor
  case aligned =>
    intro before after step field type hsteps hwire hthere
    obtain ⟨between, hbetween⟩ := hparts.split_block hsteps (by simp [hwire])
    exact hparts.lays.takenBy_eq_written_before hdated hversion hblock hbetween hwire hthere
  case skips =>
    refine ⟨known, ?_⟩
    rw [hparts.steps_eq, closing, hextensible]
    simp
  case known_eq =>
    intro before after found hsteps
    obtain ⟨rfl, -, hbefore⟩ := hparts.split_skip version received hextensible hsteps
    rw [hbefore, hknown]
  case total =>
    intro before after found hsteps
    obtain ⟨rfl, rfl, hbefore⟩ :=
      hparts.split_skip version received hextensible hsteps
    have htail : takenBy version received after = 0 :=
      takenBy_eq_zero fun s hs => Step.taken_of_isBeyond (hparts.tail_beyond s hs)
    rw [hsteps, takenBy_append, takenBy_cons, htail, Step.taken, hknown, Option.getD_some, hbefore]
    omega
  case rendered =>
    intro step owner bodies names hmem hthrown hbodies hv hreceived
    rw [hextensible] at hbodies
    refine Step.discardedBy?_bodies hbodies hthrown ?_ hv hreceived
    rintro found rfl
    obtain ⟨before, after, hsteps⟩ := List.append_of_mem hmem
    obtain ⟨rfl, -, -⟩ :=
      hparts.split_skip version received hextensible hsteps
    rw [hknown]
    rfl

theorem orderTokens_sorted : (Walk.sinceVersions orderTokens).Pairwise (· ≤ ·) := by
  have h : Walk.sinceVersions orderTokens = [0, 1] := by cbv
  rw [h]
  decide

/-- An order of the version before the price lands, with a block of twelve bytes. -/
theorem orderPlan_lands : ∃ plan, orderPlan = .ok plan ∧ plan.Lands 0 12 := by
  obtain ⟨plan, h, -⟩ := exists_orderPlan
  exact ⟨plan, h, Plan.ofTokens_lands 12 h orderTokens_fieldsFirst orderTokens_nonneg
    orderTokens_sorted (by decide)⟩

end SimpleBinary
