import SimpleBinary.Proofs.Block.Advance
import SimpleBinary.Proofs.Block.Evolution
import SimpleBinary.Proofs.Walk.Run

/-!
Where a walk closes the block.

The extension skip is recorded when the block is closed, and at no other time. So what it tells is told of the
walker at that point, whatever the walk does afterwards, and also where it is refused later on: the steps in
front of an extension skip are those of a walker that the walk has passed through with its block still open,
and the padding that closes the block (`Walk.closesAt`).
-/

set_option autoImplicit false

namespace SimpleBinary

namespace Walker

/-- Whether a walker has the steps of another one, and behind them others but no extension skip. -/
def GoesOn (w u : Walker) : Prop :=
  ∃ more, u.plan.steps = w.plan.steps ++ more ∧ ∀ s ∈ more, s.isSkip = false

/-- Whether a walker goes on from another one, either as that is or where it has closed its open block. -/
def ClosesOnce (w u : Walker) : Prop :=
  w.GoesOn u ∨ w.isClosed = false ∧ ∃ v, w.Closes v ∧ v.GoesOn u

section

variable {w v u : Walker} {token field type : Token} {rest : List Token} {step : Step}

theorem GoesOn.refl (w : Walker) : w.GoesOn w :=
  ⟨[], (List.append_nil _).symm, nofun⟩

theorem GoesOn.trans (h : w.GoesOn v) (h' : v.GoesOn u) : w.GoesOn u := by
  obtain ⟨more, hmore, hnone⟩ := h
  obtain ⟨others, hothers, hnone'⟩ := h'
  exact ⟨more ++ others, by rw [hothers, hmore, List.append_assoc], List.forall_mem_append.mpr ⟨hnone, hnone'⟩⟩

theorem goesOn_extend (w : Walker) (hstep : step.isSkip = false) : w.GoesOn (w.extend [step]) :=
  ⟨[step], rfl, List.forall_mem_singleton.mpr hstep⟩

theorem ClosesOnce.trans (h : w.ClosesOnce v) (h' : v.GoesOn u) : w.ClosesOnce u := by
  rcases h with h | ⟨hopen, x, hcloses, h⟩
  · exact .inl (h.trans h')
  · exact .inr ⟨hopen, x, hcloses, h.trans h'⟩

theorem Closes.closesOnce (h : w.Closes u) : w.ClosesOnce u := by
  cases h with
  | already => exact .inl (.refl w)
  | now hopen hlength hknown => exact .inr ⟨hopen, _, .now hopen hlength hknown, .refl _⟩

theorem Records.isSkip (h : w.Records field type step) : step.isSkip = false :=
  (Step.kinds_of_isFree h.isFree).2.1

theorem Pads.goesOn {size : Int} (h : w.Pads field type size u) : w.GoesOn u := by
  cases h with
  | gap => exact w.goesOn_extend rfl
  | _ => exact .refl w

theorem Places.goesOn (h : w.Places field type step u) (hstep : step.isSkip = false) : w.GoesOn u := by
  cases h with
  | constant => exact w.goesOn_extend hstep
  | onWire _ hpads => exact hpads.goesOn.trans (goesOn_extend _ hstep)

/-- **A turn closes the block at most once.** -/
theorem Turn.closesOnce (h : w.Turn token rest u) : w.ClosesOnce u := by
  cases h with
  | messageOpens => exact .inl (w.goesOn_extend rfl)
  | messageCloses _ hcloses => exact hcloses.closesOnce.trans (goesOn_extend _ rfl)
  | groupCloses _ hcloses => exact hcloses.closesOnce
  | field _ hrecords hplaces => exact .inl (hplaces.goesOn hrecords.isSkip)
  | group _ hcloses => exact hcloses.closesOnce.trans (goesOn_extend _ rfl)
  | varData _ hcloses => exact hcloses.closesOnce.trans (goesOn_extend _ rfl)
  | passes => exact .inl (.refl w)

end

end Walker

namespace Walk

variable {α β : Type} {w u : Walker} {token field type : Token} {rest : List Token}

/-! ## A turn that is refused -/

/-- What holds where the first part of a walk has stopped, and where the second one has, holds behind both. -/
theorem left_bind_elim {P : Walker → Prop} {x : Walk α} {f : α → Walk β} (hstop : P (left x w))
    (hon : ∀ a u, x w = .ok a u → P (left (f a) u)) : P (left (x >>= f) w) := by
  rw [left_bind]
  unfold left at hstop
  cases hx : x w with
  | ok a u => exact hon a u hx
  | error fault u =>
    rw [hx] at hstop
    exact hstop

/-- What follows a part that only looks starts with the same walker. -/
theorem left_bind_looks {P : Walker → Prop} {x : Walk α} {f : α → Walk β} (hx : Looks x) (hstop : P w)
    (hon : ∀ a, x w = .ok a w → P (left (f a) w)) : P (left (x >>= f) w) := by
  refine left_bind_elim ((hx w).symm ▸ hstop) fun a u hrun => ?_
  obtain rfl : w = u := (hx w).symm.trans (left_of_ok hrun)
  exact hon a hrun

theorem goesOn_openField (field type : Token) : w.GoesOn (left (openField field type) w) := by
  unfold openField
  split
  · exact .refl w
  unfold pad
  split
  · exact .refl w
  · refine left_bind_looks looks_get (.refl w) ?_
    rintro v -
    dsimp only
    split
    · exact .refl w
    split
    · exact .refl w
    · exact left_bind_elim (w.goesOn_extend rfl) fun _ _ hpush => push_ok.mp hpush ▸ w.goesOn_extend rfl

theorem goesOn_place (gap : Int) {step : Step} (hstep : step.isSkip = false) :
    w.GoesOn (left (place field type gap step) w) := by
  unfold place
  refine left_bind_elim (w.goesOn_extend hstep) fun _ v hpush => ?_
  obtain rfl := push_ok.mp hpush
  split
  · split <;> exact w.goesOn_extend hstep
  · exact w.goesOn_extend hstep

/-- A block that cannot be closed has no skip. -/
theorem goesOn_of_close_error {fault : Fault} (h : close w = .error fault u) : w.GoesOn u := by
  unfold close at h
  rcases state_bind_error.mp h with h | ⟨_, _, hget, h⟩
  · cases h
  obtain ⟨rfl, rfl⟩ := get_ok.mp hget
  split at h
  · rcases state_bind_error.mp h with h | ⟨_, _, hmodify, h⟩
    · cases h
    obtain rfl := modify_ok.mp hmodify
    rcases state_bind_error.mp h with h | ⟨_, v, hget, h⟩
    · cases h
    obtain ⟨rfl, rfl⟩ := get_ok.mp hget
    -- The skip is the last to be recorded, so what is recorded before a fault is the padding at most.
    have hskip {v : Walker} (hv : w.GoesOn v)
        (h : (if w.plan.isExtensible then do push (.extensionSkip (← ofExcept w.ends.knownLengths))
          else pure () : Walk Unit) v = .error fault u) : w.GoesOn u := by
      split at h
      · rcases state_bind_error.mp h with h | ⟨_, _, -, h⟩
        · have hlooks := looks_ofExcept w.ends.knownLengths v
          rw [left, h] at hlooks
          obtain rfl : u = v := hlooks
          exact hv
        · cases h
      · cases h
    cases hlength : w.plan.blockLength with
    | none =>
      simp only [hlength] at h
      cases h
      exact .refl w
    | some length =>
      simp only [hlength] at h
      split at h
      · rcases state_bind_error.mp h with h | ⟨_, _, hpush, h⟩
        · cases h
        · obtain rfl := push_ok.mp hpush
          exact hskip (v := { w with isClosed := true }.extend _) (w.goesOn_extend rfl) h
      · exact hskip (v := { w with isClosed := true }) (.refl w) h
  · cases h

theorem closesOnce_close : w.ClosesOnce (left close w) := by
  cases hrun : close w with
  | ok _ u =>
    rw [left_of_ok hrun]
    exact (close_ok hrun).closesOnce
  | error fault u =>
    rw [left, hrun]
    exact .inl (goesOn_of_close_error hrun)

/-- Closing the block, and what goes on from there. -/
theorem closesOnce_close_bind {f : Unit → Walk β} (hf : ∀ u : Walker, u.GoesOn (left (f ()) u)) :
    w.ClosesOnce (left (close >>= f) w) :=
  left_bind_elim closesOnce_close fun _ u hclose => (close_ok hclose).closesOnce.trans (hf u)

/-- What a turn over a field leaves goes on from where it began, whether the field is placed or refused. -/
theorem goesOn_recordField {x : Walk α} (hx : Looks x) :
    w.GoesOn (left (do
      let gap ← openField field type
      place field type gap (← fieldStep field type)
      x) w) := by
  refine left_bind_elim (goesOn_openField field type) fun gap u hopen => ?_
  have hu : w.GoesOn u := left_of_ok hopen ▸ goesOn_openField field type
  refine left_bind_looks (looks_fieldStep field type) hu fun step hstep => ?_
  rw [left_bind_looks_right fun _ => hx]
  exact hu.trans (goesOn_place gap (fieldStep_ok (w := u) hstep).2.isSkip)

/-- **A turn closes the block at most once**, also where it is refused. -/
theorem closesOnce_turn (token : Token) (rest : List Token) (w : Walker) :
    w.ClosesOnce (left (turn token rest) w) := by
  -- The skip comes from `close` alone, which is the first thing that a turn does, if it does it at all.
  unfold turn
  cases token.signal with
  | closes construct =>
    cases construct with
    | message => exact closesOnce_close_bind fun u => u.goesOn_extend rfl
    | group => exact closesOnce_close_bind fun u => .refl u
    | _ => exact .inl (.refl w)
  | opens construct =>
    cases construct with
    | message => exact .inl (w.goesOn_extend rfl)
    | field =>
      cases rest with
      | nil => exact .inl (.refl w)
      | cons type rest => exact .inl (goesOn_recordField (looks_passOver _))
    | enumeration | choiceSet => exact .inl (goesOn_recordField (looks_passOver _))
    | composite =>
      refine .inl (left_bind_elim (goesOn_openField token token) fun gap u hopen => ?_)
      have hu : w.GoesOn u := left_of_ok hopen ▸ goesOn_openField token token
      refine left_bind_looks (looks_ofExcept _) hu fun span _ => ?_
      refine left_bind_looks looks_inner hu fun nested _ => ?_
      rw [left_bind_looks_right fun _ => looks_pure _]
      exact hu.trans (goesOn_place gap rfl)
    | group =>
      refine closesOnce_close_bind fun u => ?_
      refine left_bind_looks (looks_ofExcept _) (.refl u) fun span _ => ?_
      refine left_bind_looks looks_leading (.refl u) fun lead _ => ?_
      refine left_bind_looks (looks_ofExcept _) (.refl u) fun dimensions _ => ?_
      refine left_bind_looks looks_inner (.refl u) fun element _ => ?_
      exact u.goesOn_extend rfl
    | varData =>
      refine closesOnce_close_bind fun u => ?_
      refine left_bind_looks looks_leading (.refl u) fun lead _ => ?_
      rw [left_bind_looks_right fun _ => looks_passOver _]
      exact u.goesOn_extend rfl
  | encoding =>
    refine .inl (left_bind_elim (goesOn_openField token token) fun gap u hopen => ?_)
    have hu : w.GoesOn u := left_of_ok hopen ▸ goesOn_openField token token
    rw [left_bind_looks_right fun _ => looks_pure rest]
    exact hu.trans (goesOn_place gap rfl)
  | _ => exact .inl (.refl w)

/-! ## The walker at the close -/

section

variable {blank p : Plan} {ts ahead : List Token}

theorem Visits.suffix {start : Walker} (h : Visits start ts ahead w) : ahead <:+ ts := by
  induction h with
  | start => exact List.suffix_rfl
  | turn _ _ ih => exact (after_suffix ..).trans ih

/-- A walk that succeeds passes through the walker that it ends with. -/
theorem visits_of_tokens {start : Walker} (h : tokens ts start = .ok () u) : Visits start ts [] u :=
  tokens_induction (P := Visits start ts) (fun hw hturn => hw.turn hturn) .start h

/-- **While the block is open, the steps of a walker are a block.** -/
theorem Visits.block (hsteps : blank.steps = [])
    (hnonneg : ∀ t ∈ ts, ∀ length, t.encodedLength = some length → 0 ≤ length)
    (h : Visits { plan := blank } ts ahead w) (hopen : w.isClosed = false) :
    Block w.plan.steps w.offset w.ends := by
  induction h with
  | start =>
    rw [hsteps]
    exact .empty
  | @turn token rest w u hvisits hturn ih =>
    cases hturn with
    | messageOpens => exact (ih hopen).validation
    | passes => exact ih hopen
    | field hstop hrecords hplaces =>
      have htype := hvisits.suffix.mem (type_mem_of_stopAt hstop)
      exact hplaces.block (ih (hplaces.isClosed_eq.symm.trans hopen)) (hnonneg _ htype) hrecords
    | messageCloses _ hcloses | groupCloses _ hcloses | group _ hcloses | varData _ hcloses =>
      exact absurd hcloses.isClosed (Bool.eq_false_iff.mp hopen)

/-- Whether a walk passes through a walker with an open block, and closes the block there: what stands in front
of the extension skip are the steps of the walker and padding, and the skip has its known lengths. -/
structure ClosesAt (start : Walker) (ts : List Token) (w : Walker) (before : List Step)
    (known : List (Int × Int)) : Prop where
  visited : ∃ ahead, Visits start ts ahead w
  opened : w.isClosed = false
  padded : ∃ padding, before = w.plan.steps ++ padding ∧ ∀ s ∈ padding, s.isTrailingGap = true
  known : w.ends.knownLengths = .ok known

/-- Whether each extension skip of a walker was recorded where a walk has closed the block. -/
def Explains (start : Walker) (ts : List Token) (w : Walker) : Prop :=
  ∀ before known after, w.plan.steps = before ++ .extensionSkip known :: after →
    ∃ v, ClosesAt start ts v before known

theorem Explains.goesOn {start : Walker} (hw : Explains start ts w) (h : w.GoesOn u) : Explains start ts u := by
  intro before known after hsplit
  obtain ⟨more, hmore, hnone⟩ := h
  rw [hmore] at hsplit
  obtain ⟨between, hsteps, -⟩ := split_append hsplit fun hmem => by simpa [Step.isSkip] using hnone _ hmem
  exact hw before known between hsteps

/-- Closing an open block explains the skip that it records. -/
theorem explains_of_closes {start v : Walker} (hvisits : Visits start ts ahead w) (hopen : w.isClosed = false)
    (hnone : ∀ known, .extensionSkip known ∉ w.plan.steps) (h : w.Closes v) : Explains start ts v := by
  cases h with
  | already hclosed => exact absurd hclosed (Bool.eq_false_iff.mp hopen)
  | @now length known _ _ hknown =>
    intro before found after hsplit
    rw [Walker.extend_steps] at hsplit
    cases hext : w.plan.isExtensible with
    | false =>
      -- A block that newer schemas do not extend has no skip.
      have hmem : .extensionSkip found ∈ w.plan.steps ++ closing false w.offset length known := by
        rw [← hext, hsplit]
        simp
      rcases List.mem_append.mp hmem with hmem | hmem
      · exact absurd hmem (hnone found)
      · simp [closing] at hmem
    | true =>
      rw [hext, closing, if_pos rfl, ← List.append_assoc] at hsplit
      rcases split_concat hsplit with ⟨-, hskip, rfl⟩ | ⟨front, -, hfront⟩
      · cases hskip
        refine ⟨w, ⟨ahead, hvisits⟩, hopen, ⟨_, rfl, ?_⟩, hknown hext⟩
        split <;> simp [Step.isTrailingGap]
      · have hmem : .extensionSkip found ∈ w.plan.steps ++
            if w.offset < length then [.gap (length - w.offset) (some 0) true] else [] := by
          rw [hfront]
          simp
        rcases List.mem_append.mp hmem with hmem | hmem
        · exact absurd hmem (hnone found)
        · split at hmem <;> simp at hmem

theorem Explains.closesOnce {start : Walker} (hvisits : Visits start ts ahead w)
    (hnone : w.isClosed = false → ∀ known, .extensionSkip known ∉ w.plan.steps) (hw : Explains start ts w)
    (h : w.ClosesOnce u) : Explains start ts u := by
  rcases h with h | ⟨hopen, v, hcloses, h⟩
  · exact hw.goesOn h
  · exact (explains_of_closes hvisits hopen (hnone hopen) hcloses).goesOn h

theorem Visits.not_mem (hsteps : blank.steps = [])
    (hnonneg : ∀ t ∈ ts, ∀ length, t.encodedLength = some length → 0 ≤ length)
    (h : Visits { plan := blank } ts ahead w) (hopen : w.isClosed = false) (known : List (Int × Int)) :
    .extensionSkip known ∉ w.plan.steps :=
  (h.block hsteps hnonneg hopen).extensionSkip_not_mem known

theorem Visits.explains (hsteps : blank.steps = [])
    (hnonneg : ∀ t ∈ ts, ∀ length, t.encodedLength = some length → 0 ≤ length)
    (h : Visits { plan := blank } ts ahead w) : Explains { plan := blank } ts w := by
  induction h with
  | start =>
    intro before known after hsplit
    rw [hsteps] at hsplit
    simp at hsplit
  | turn hvisits hturn ih => exact ih.closesOnce hvisits (hvisits.not_mem hsteps hnonneg) hturn.closesOnce

/-- What a walk leaves goes on from a walker that it has passed through, whether it succeeds or fails. -/
theorem exists_closesOnce {start : Walker} (h : Visits start ts ahead w) :
    ∃ rest v, Visits start ts rest v ∧ v.ClosesOnce (left (tokens ahead) w) := by
  induction ahead using stops.induct generalizing w with
  | case1 =>
    rw [tokens]
    exact ⟨[], w, h, .inl (.refl w)⟩
  | case2 token rest ih =>
    rw [tokens_cons]
    -- The walk is refused in this turn, or it goes on behind it.
    refine left_bind_elim (P := fun u => ∃ ahead v, Visits start ts ahead v ∧ v.ClosesOnce u)
      ⟨token :: rest, w, h, closesOnce_turn token rest w⟩ fun more u hrun => ?_
    obtain ⟨hturn, -, rfl⟩ := turn_ok hrun
    exact ih (h.turn hturn)

theorem closesOnce_finish : w.ClosesOnce (left finish w) := by
  unfold finish
  refine left_bind_elim closesOnce_close fun _ u hclose => ?_
  exact (close_ok hclose).closesOnce.trans ⟨[], (List.append_nil _).symm, nofun⟩

/-- **The extension skip is recorded where the block is closed.** This holds of what a walk leaves, whether it
succeeds or is refused. -/
theorem closesAt (hsteps : blank.steps = [])
    (hnonneg : ∀ t ∈ ts, ∀ length, t.encodedLength = some length → 0 ≤ length) :
    Explains { plan := blank } ts (Walker.afterWalk { plan := blank } ts) := by
  rw [Walker.afterWalk_eq]
  refine left_bind_elim ?_ fun _ u hrun => ?_
  -- Either the walk is refused in some turn, or all tokens are behind it and the block is closed at last.
  · obtain ⟨rest, v, hvisits, hcloses⟩ := exists_closesOnce (@Visits.start { plan := blank } ts)
    exact (hvisits.explains hsteps hnonneg).closesOnce hvisits (hvisits.not_mem hsteps hnonneg) hcloses
  · have hvisits := visits_of_tokens hrun
    exact (hvisits.explains hsteps hnonneg).closesOnce hvisits (hvisits.not_mem hsteps hnonneg) closesOnce_finish

/-! ## Walks that close the block -/

theorem Visits.plan_eq {start : Walker} (h : Visits start ts ahead w) :
    ∃ more, w.plan = (start.extend more).plan := by
  induction h with
  | start => exact ⟨[], by rw [Walker.extend_nil]⟩
  | turn _ hturn ih =>
    obtain ⟨steps, hsteps⟩ := ih
    obtain ⟨more, hmore⟩ := hturn.extends
    refine ⟨steps ++ more, ?_⟩
    rw [hmore, ← Walker.extend_extend, Walker.extend, hsteps]
    rfl

/-- Where all tokens have a version, so have the ends that are recorded. -/
theorem Visits.dated (hversions : ∀ t ∈ ts, t.version.isSome = true)
    (h : Visits { plan := blank } ts ahead w) : w.ends.Dated := by
  have hcloses {w v : Walker} (h : w.Closes v) (hw : w.ends.Dated) : v.ends.Dated := by
    cases h <;> exact hw
  induction h with
  | start =>
    intro key hkey
    rw [List.mem_singleton.mp hkey]
    rfl
  | turn hvisits hturn ih =>
    cases hturn with
    | messageOpens | passes => exact ih
    | messageCloses _ h | groupCloses _ h | group _ h | varData _ h =>
      have := hcloses h ih
      exact this
    | field hstop _ hplaces =>
      obtain rfl := field_eq_of_stopAt hstop
      have hversion := hversions _ (hvisits.suffix.mem (List.mem_cons_self ..))
      cases hplaces with
      | constant => exact ih
      | onWire _ hpads =>
        -- A field on the wire is the only thing that records an end, with the version of its token.
        rw [Walker.advance_ends, FieldEnds.dated_record]
        refine ⟨Option.isSome_iff_exists.mp hversion, ?_⟩
        cases hpads <;> exact ih

/-- **A walk can close the block wherever it has come to**, where the entity has a length and the tokens have
versions. -/
theorem Visits.exists_close (hlength : blank.blockLength.isSome = true)
    (hversions : ∀ t ∈ ts, t.version.isSome = true) (h : Visits { plan := blank } ts ahead w) :
    ∃ u, close w = .ok () u := by
  by_cases hclosed : w.isClosed = true
  · exact ⟨w, close_of_isClosed hclosed⟩
  · obtain ⟨more, hmore⟩ := h.plan_eq
    obtain ⟨length, hlength⟩ := Option.isSome_iff_exists.mp hlength
    obtain ⟨known, hknown⟩ := FieldEnds.exists_knownLengths (h.dated hversions)
    have hlength : w.plan.blockLength = some length := by
      rw [hmore]
      exact hlength
    exact ⟨_, close_of_open (Bool.eq_false_iff.mpr hclosed) hlength hknown⟩

/-- Whether a walker that has closed an extensible block has an extension skip. -/
def Skips (w : Walker) : Prop :=
  w.plan.isExtensible = true → w.isClosed = true → ∃ known, .extensionSkip known ∈ w.plan.steps

theorem skips_of_closes (hw : Skips w) (h : w.Closes u) : Skips u := by
  cases h with
  | already => exact hw
  | @now length known =>
    intro hext _
    exact ⟨known, by simp_all [closing]⟩

theorem Skips.extend (hw : Skips w) (steps : List Step) : Skips (w.extend steps) := by
  intro hext hclosed
  obtain ⟨known, hmem⟩ := hw hext hclosed
  exact ⟨known, List.mem_append_left _ hmem⟩

theorem Visits.skips (h : Visits { plan := blank } ts ahead w) : Skips w := by
  induction h with
  | start => exact fun _ hclosed => nomatch hclosed
  | turn _ hturn ih =>
    cases hturn with
    | messageOpens => exact ih.extend _
    | passes => exact ih
    | messageCloses _ h | group _ h | varData _ h => exact (skips_of_closes ih h).extend _
    | groupCloses _ h => exact skips_of_closes ih h
    | field _ _ hplaces =>
      cases hplaces with
      | constant => exact ih.extend _
      | onWire _ hpads =>
        cases hpads with
        | gap => exact (ih.extend _).extend _
        | _ => exact ih.extend _

/-- The plan that a walk makes is the one that its walker holds at the end. -/
theorem plan_of_finish (h : finish w = .ok p u) : u.plan = p := by
  unfold finish at h
  obtain ⟨_, _, -, h⟩ := bind_ok.mp h
  obtain ⟨_, _, -, h⟩ := bind_ok.mp h
  obtain ⟨_, _, hget, h⟩ := bind_ok.mp h
  obtain ⟨rfl, rfl⟩ := get_ok.mp hget
  obtain ⟨rfl, rfl⟩ := pure_ok.mp h
  rfl

theorem afterWalk_of_ofTokens (h : blank.ofTokens ts = .ok p) :
    (Walker.afterWalk { plan := blank } ts).plan = p := by
  unfold Plan.ofTokens fresh at h
  split at h
  · rename_i found last hrun
    obtain rfl := Except.ok.inj h
    obtain ⟨_, v, -, hfinish⟩ := bind_ok.mp hrun
    have hleft : left (tokens ts >>= fun _ => finish) { plan := blank } = last := left_of_ok hrun
    rw [Walker.afterWalk_eq, hleft, plan_of_finish hfinish]
  · cases h

/-- **The plan of an extensible entity has an extension skip.** -/
theorem exists_skip_of_ofTokens (hext : blank.isExtensible = true) (h : blank.ofTokens ts = .ok p) :
    ∃ known, .extensionSkip known ∈ p.steps := by
  have hextensible : p.isExtensible = true := (Plan.ofTokens_attributes h).2.trans hext
  obtain ⟨u, v, hrun, hcloses, rfl⟩ := fresh_ok h
  exact skips_of_closes (visits_of_tokens hrun).skips hcloses hextensible hcloses.isClosed

end

end Walk

end SimpleBinary
