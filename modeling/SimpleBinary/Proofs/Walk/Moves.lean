import SimpleBinary.Proofs.Block.Known
import SimpleBinary.Proofs.Block.Layout

/-!
Moves of a walker.

A walker can be given one list of tokens after the other, and a list that it refuses half way leaves it
with the steps it has recorded by then. Whatever the lists are, it only ever makes moves of five kinds
(`Walker.Moves`): it records a step that may stand anywhere, advances behind a field, closes the block,
records a group or variable data behind the closed block, or notes how far the block reaches. What
holds of a walker at all times is then shown once for each kind of move. A turn is a sequence of moves
(`Walk.reaches_turn`), and so is a walk (`Walk.reaches_tokens`), whether it succeeds or fails.
-/

set_option autoImplicit false

namespace SimpleBinary

namespace Step

/-- Whether the step is the extension skip. -/
def isSkip : Step → Bool
  | .extensionSkip _ => true
  | _ => false

/-- Whether the step closes the fixed block. -/
def closesBlock (s : Step) : Bool :=
  s.isTrailingGap || s.isSkip

/-- Whether the step has its place behind the fixed block. -/
def followsBlock : Step → Bool
  | .group .. | .varData .. => true
  | _ => false

/-- Whether the step may stand on either side of what closes the block. -/
def isFree (s : Step) : Bool :=
  !s.closesBlock && !s.followsBlock

theorem isFree_iff {s : Step} :
    s.isFree = true ↔ s.closesBlock = false ∧ s.followsBlock = false := by
  rw [isFree, Bool.and_eq_true, Bool.not_eq_true', Bool.not_eq_true']

theorem kinds_of_isFree {s : Step} (h : s.isFree = true) :
    s.isTrailingGap = false ∧ s.isSkip = false ∧ s.followsBlock = false := by
  obtain ⟨hcloses, hfollows⟩ := isFree_iff.mp h
  obtain ⟨hgap, hskip⟩ := Bool.or_eq_false_iff.mp hcloses
  exact ⟨hgap, hskip, hfollows⟩

theorem closesBlock_of_followsBlock {s : Step} (h : s.followsBlock = true) :
    s.closesBlock = false := by
  cases s <;> simp_all [followsBlock, closesBlock, isTrailingGap, isSkip]

theorem followsBlock_of_closesBlock {s : Step} (h : s.closesBlock = true) :
    s.followsBlock = false := by
  cases s <;> simp_all [followsBlock, closesBlock, isTrailingGap, isSkip]

end Step

theorem closesBlock_of_mem_closing {isExtensible : Bool} {offset length : Int}
    {known : List (Int × Int)} {s : Step} (h : s ∈ closing isExtensible offset length known) :
    s.closesBlock = true := by
  unfold closing at h
  rcases List.mem_append.mp h with h | h
  · split at h
    · rw [List.mem_singleton.mp h]
      rfl
    · cases h
  · split at h
    · rw [List.mem_singleton.mp h]
      rfl
    · cases h

namespace Walker

/-- One move of a walker. -/
inductive Moves (w : Walker) : Walker → Prop
  | records {step : Step} : step.isFree = true → Moves w (w.extend [step])
  | advances {version : Option Int} (reached : Int) : version.isSome = true →
      Moves w (w.advance version reached)
  | closes {length : Int} {known : List (Int × Int)} : w.isClosed = false →
      Moves w ({ w with isClosed := true }.extend
        (closing w.plan.isExtensible w.offset length known))
  | follows {step : Step} : w.isClosed = true → step.followsBlock = true →
      Moves w (w.extend [step])
  | notes (offset : Int) : Moves w { w with plan := { w.plan with consumed := offset } }

/-- Any number of moves. -/
def Reaches : Walker → Walker → Prop :=
  Relation.ReflTransGen Moves

/-- A walker that can close its block: there is a declared length to compare with, and the versions of
the recorded ends can be put in order. -/
structure Sound (w : Walker) : Prop where
  hasLength : w.plan.blockLength.isSome = true
  dated : w.ends.Dated

/-- How far the steps of a walker have come. While the block is open they may all stand anywhere; once it
is closed, what closes it stands behind such steps, and nothing behind it closes it again. -/
inductive Staged (w : Walker) : Prop
  | opened : w.isClosed = false → (∀ s ∈ w.plan.steps, s.isFree = true) → Staged w
  | shut {before after : List Step} {offset length : Int} {known : List (Int × Int)} :
      w.isClosed = true →
      w.plan.steps = before ++ closing w.plan.isExtensible offset length known ++ after →
      (∀ s ∈ before, s.isFree = true) → (∀ s ∈ after, s.closesBlock = false) → Staged w

section

variable {w u : Walker}

/-! ## What a move keeps -/

theorem Moves.sound (h : w.Moves u) (hw : w.Sound) : u.Sound := by
  obtain ⟨hlength, hdated⟩ := hw
  cases h with
  | advances reached hversion =>
    refine ⟨hlength, ?_⟩
    rw [advance_ends, FieldEnds.dated_record]
    exact ⟨Option.isSome_iff_exists.mp hversion, hdated⟩
  | _ => exact ⟨hlength, hdated⟩

theorem Moves.isExtensible (h : w.Moves u) : u.plan.isExtensible = w.plan.isExtensible := by
  cases h <;> rfl

/-- No move takes a step back. -/
theorem Moves.steps_prefix (h : w.Moves u) : w.plan.steps <+: u.plan.steps := by
  cases h with
  | advances | notes => exact List.prefix_rfl
  | _ => exact List.prefix_append _ _

/-- No move opens the block again. -/
theorem Moves.isClosed (h : w.Moves u) (hclosed : w.isClosed = true) : u.isClosed = true := by
  cases h with
  | closes => rfl
  | _ => exact hclosed

theorem Moves.zero_mem (h : w.Moves u) (hzero : some 0 ∈ w.ends.map Prod.fst) :
    some 0 ∈ u.ends.map Prod.fst := by
  cases h with
  | advances reached hversion =>
    rw [advance_ends, FieldEnds.mem_keys_record]
    exact .inr hzero
  | _ => exact hzero

/-- **A move keeps the steps in their stages.** -/
theorem Moves.staged (h : w.Moves u) (hw : w.Staged) : u.Staged := by
  -- A step behind those there are, which does not close the block.
  have hbehind {step : Step} (hclosed : w.isClosed = true) (hstep : step.closesBlock = false) :
      (w.extend [step]).Staged := by
    cases hw with
    | opened hopen => simp [hclosed] at hopen
    | @shut before after offset length known _ hsteps hbefore hafter =>
      have hlonger : ∀ s ∈ after ++ [step], s.closesBlock = false := by
        intro s hs
        rcases List.mem_append.mp hs with hs | hs
        · exact hafter s hs
        · rwa [List.mem_singleton.mp hs]
      have hsteps' : (w.extend [step]).plan.steps =
          before ++ closing w.plan.isExtensible offset length known ++ (after ++ [step]) := by
        rw [extend_steps, hsteps, List.append_assoc _ after]
      exact .shut hclosed hsteps' hbefore hlonger
  cases h with
  | @records step hfree =>
    by_cases hclosed : w.isClosed = true
    · exact hbehind hclosed (Step.isFree_iff.mp hfree).1
    · cases hw with
      | shut hshut => exact absurd hshut hclosed
      | opened hopen hall =>
        refine .opened hopen ?_
        intro s hs
        rcases List.mem_append.mp hs with hs | hs
        · exact hall s hs
        · rwa [List.mem_singleton.mp hs]
  | @closes length known hopen =>
    cases hw with
    | shut hshut => simp [hopen] at hshut
    | opened _ hall =>
      have hsteps : ({ w with isClosed := true }.extend
          (closing w.plan.isExtensible w.offset length known)).plan.steps =
            w.plan.steps ++ closing w.plan.isExtensible w.offset length known ++ [] := by
        rw [List.append_nil]
        rfl
      exact .shut rfl hsteps hall (by simp)
  | follows hclosed hfollows => exact hbehind hclosed (Step.closesBlock_of_followsBlock hfollows)
  | advances | notes =>
    cases hw with
    | opened hopen hall => exact .opened hopen hall
    | shut hshut hsteps hbefore hafter => exact .shut hshut hsteps hbefore hafter

/-! ## What any number of moves keeps -/

/-- What every move keeps is kept by all of them. -/
theorem Reaches.keeps {P : Walker → Prop} (hP : ∀ {w u : Walker}, w.Moves u → P w → P u)
    (h : w.Reaches u) (hw : P w) : P u := by
  induction h with
  | refl => exact hw
  | tail _ hmove ih => exact hP hmove ih

theorem Reaches.sound (h : w.Reaches u) (hw : w.Sound) : u.Sound :=
  h.keeps Moves.sound hw

theorem Reaches.steps_prefix (h : w.Reaches u) : w.plan.steps <+: u.plan.steps :=
  h.keeps (P := fun v => w.plan.steps <+: v.plan.steps)
    (fun hmove hv => hv.trans hmove.steps_prefix) List.prefix_rfl

theorem Reaches.isExtensible (h : w.Reaches u) :
    u.plan.isExtensible = w.plan.isExtensible :=
  h.keeps (P := fun v => v.plan.isExtensible = w.plan.isExtensible)
    (fun hmove hv => hmove.isExtensible.trans hv) rfl

/-- **A group or variable data is recorded when the block is closed.** At some time on the way the plan
had the steps before it, and the block was closed already. -/
theorem Reaches.recorded (h : w.Reaches u) {before after : List Step} {s : Step}
    (hsteps : u.plan.steps = before ++ s :: after) (hs : s.followsBlock = true)
    (hstart : w.plan.steps = []) :
    ∃ v, w.Reaches v ∧ v.plan.steps = before ∧ v.isClosed = true ∧ (v.extend [s]).Reaches u := by
  induction h generalizing after with
  | refl =>
    rw [hstart] at hsteps
    simp at hsteps
  | @tail m u hpath hmove ih =>
    -- Where the last move has not recorded the step, it was there before the move.
    have hearlier {more : List Step} (hmore : u.plan.steps = m.plan.steps ++ more) (hnot : s ∉ more) :
        ∃ v, w.Reaches v ∧ v.plan.steps = before ∧ v.isClosed = true ∧ (v.extend [s]).Reaches u := by
      rw [hmore] at hsteps
      obtain ⟨rest, hold, -⟩ := split_append hsteps hnot
      obtain ⟨v, hv, hbefore, hclosed, hon⟩ := ih hold
      exact ⟨v, hv, hbefore, hclosed, hon.tail hmove⟩
    cases hmove with
    | @records step hfree =>
      refine hearlier rfl ?_
      intro hmem
      rw [List.mem_singleton.mp hmem] at hs
      simp [(Step.isFree_iff.mp hfree).2] at hs
    | closes =>
      refine hearlier rfl ?_
      intro hmem
      have := closesBlock_of_mem_closing hmem
      rw [Step.closesBlock_of_followsBlock hs] at this
      cases this
    | @follows step hclosed hstep =>
      rcases split_concat hsteps with ⟨rfl, rfl, rfl⟩ | ⟨rest, -, hold⟩
      · exact ⟨m, hpath, rfl, hclosed, .refl⟩
      · obtain ⟨v, hv, hbefore, hshut, hon⟩ := ih hold
        exact ⟨v, hv, hbefore, hshut, hon.tail (.follows hclosed hstep)⟩
    | advances | notes =>
      exact hearlier (List.append_nil _).symm (List.not_mem_nil)

/-- The step of a field may stand on either side of what closes the block. -/
theorem Records.isFree {field type : Token} {step : Step}
    (h : w.Records field type step) : step.isFree = true := by
  cases h <;> rfl

end

end Walker

namespace Walk

section

variable {α β : Type} {w u : Walker}

/-! ## The moves of a part of a walk -/

/-- The walker that a part of a walk leaves, whether it succeeds or fails. -/
def left (x : Walk α) (w : Walker) : Walker :=
  match x w with
  | .ok _ u => u
  | .error _ u => u

theorem left_of_ok {x : Walk α} {a : α} (h : x w = .ok a u) : left x w = u := by
  rw [left, h]

theorem left_bind {x : Walk α} {f : α → Walk β} :
    left (x >>= f) w =
      match x w with
      | .ok a u => left (f a) u
      | .error _ u => u := by
  show (match EStateM.bind x f w with | .ok _ u => u | .error _ u => u) = _
  rw [EStateM.bind]
  cases x w <;> rfl

/-- **Two parts of a walk, one after the other.** The second one starts where the first has succeeded,
and there the walker is still sound. -/
theorem reaches_bind {x : Walk α} {f : α → Walk β} (hw : w.Sound) (hx : w.Reaches (left x w))
    (hf : ∀ a u, x w = .ok a u → u.Sound → u.Reaches (left (f a) u)) :
    w.Reaches (left (x >>= f) w) := by
  rw [left_bind]
  unfold left at hx
  cases hrun : x w with
  | ok a u =>
    rw [hrun] at hx
    exact hx.trans (hf a u hrun (hx.sound hw))
  | error fault u =>
    rw [hrun] at hx
    exact hx

/-- A part of a walk that leaves the walker as it is. -/
def Looks (x : Walk α) : Prop :=
  ∀ w, left x w = w

theorem reaches_of_looks {x : Walk α} (hx : Looks x) : w.Reaches (left x w) := by
  rw [hx]
  exact .refl

/-- What follows a part that only looks starts with the same walker. -/
theorem reaches_bind_looks {x : Walk α} {f : α → Walk β} (hw : w.Sound) (hx : Looks x)
    (hf : ∀ a, x w = .ok a w → w.Reaches (left (f a) w)) : w.Reaches (left (x >>= f) w) := by
  refine reaches_bind hw (reaches_of_looks hx) ?_
  intro a u hrun _
  obtain rfl : w = u := (hx w).symm.trans (left_of_ok hrun)
  exact hf a hrun

/-- A part that only looks leaves what the part before it has left. -/
theorem left_bind_looks_right {x : Walk α} {f : α → Walk β} (hf : ∀ a, Looks (f a)) :
    left (x >>= f) w = left x w := by
  rw [left_bind, left]
  cases x w with
  | ok a u => exact hf a u
  | error fault u => rfl

theorem looks_pure (a : α) : Looks (pure a : Walk α) := fun _ => rfl

theorem looks_throw (fault : Fault) : Looks (throw fault : Walk α) := fun _ => rfl

theorem looks_get : Looks (get : Walk Walker) := fun _ => rfl

theorem looks_ofExcept (outcome : Except Fault α) : Looks (ofExcept outcome) := by
  intro w
  cases outcome <;> rfl

theorem looks_leading {cause : Inconsistency} {ts : List Token} : Looks (leading cause ts) := by
  intro w
  unfold leading
  split
  · rfl
  · split
    · split <;> rfl
    · rfl

theorem looks_fieldStep (field type : Token) : Looks (fieldStep field type) := by
  intro w
  unfold fieldStep
  split <;> rfl

/-- A part of the entity is walked by a walker of its own. -/
theorem looks_inner {kind : EntityKind} {isExtensible : Bool} {token : Token} {walk : Walk Unit} :
    Looks (inner kind isExtensible token walk) := by
  intro w
  rw [inner, left_bind]
  exact looks_ofExcept _ w

theorem reaches_push {step : Step} (h : step.isFree = true) : w.Reaches (left (push step) w) :=
  .single (.records h)

theorem reaches_openField (hw : w.Sound) (field type : Token) :
    w.Reaches (left (openField field type) w) := by
  unfold openField
  split
  · exact reaches_of_looks (looks_pure _)
  unfold pad
  split
  · exact reaches_of_looks (looks_pure _)
  · refine reaches_bind_looks hw looks_get ?_
    rintro v -
    dsimp only
    split
    · exact reaches_of_looks (looks_throw _)
    split
    · exact reaches_of_looks (looks_pure _)
    · exact reaches_bind hw (reaches_push rfl) fun _ _ _ _ => reaches_of_looks (looks_pure _)

theorem reaches_place (hw : w.Sound) {field type : Token} (hversion : field.version.isSome = true)
    (gap : Int) {step : Step} (hstep : step.isFree = true) :
    w.Reaches (left (place field type gap step) w) := by
  unfold place
  refine reaches_bind hw (reaches_push hstep) ?_
  intro _ v _ _
  split
  · split
    · exact reaches_of_looks (looks_throw _)
    · exact .single (.advances _ hversion)
  · exact reaches_of_looks (looks_pure _)

/-- The steps that close a block, recorded one after the other. -/
theorem pushClosing_eq (isExtensible : Bool) {offset length : Int} {ends : FieldEnds}
    {known : List (Int × Int)} (hknown : ends.knownLengths = .ok known) :
    (do
      if offset < length then
        push (.gap (length - offset) (some 0) true)
      if isExtensible then
        push (.extensionSkip (← ofExcept ends.knownLengths)) : Walk Unit) w =
      .ok () (w.extend (closing isExtensible offset length known)) := by
  rw [hknown]
  unfold closing
  by_cases hshort : offset < length <;> cases isExtensible
  · simp only [hshort]
    rfl
  · simp only [hshort, if_true, List.cons_append, List.nil_append]
    rw [← List.singleton_append, ← Walker.extend_extend]
    rfl
  · simp only [hshort]
    exact congrArg _ w.extend_nil.symm
  · simp only [hshort]
    rfl

theorem close_of_open (hopen : w.isClosed = false) {length : Int}
    (hlength : w.plan.blockLength = some length) {known : List (Int × Int)}
    (hknown : w.ends.knownLengths = .ok known) :
    close w = .ok () ({ w with isClosed := true }.extend
      (closing w.plan.isExtensible w.offset length known)) := by
  obtain ⟨plan, offset, isClosed, ends⟩ := w
  obtain ⟨typeName, kind, blockLength, isExtensible, token, steps, consumed⟩ := plan
  dsimp only at hopen hlength hknown
  subst hopen hlength
  exact pushClosing_eq isExtensible hknown

/-- A sound walker can always close its block, and does so in one move. -/
theorem reaches_close (hw : w.Sound) : w.Reaches (left close w) := by
  by_cases hclosed : w.isClosed = true
  · rw [left_of_ok (close_of_isClosed hclosed)]
    exact .refl
  · have hopen := Bool.eq_false_iff.mpr hclosed
    obtain ⟨length, hlength⟩ := Option.isSome_iff_exists.mp hw.hasLength
    obtain ⟨known, hknown⟩ := FieldEnds.exists_knownLengths hw.dated
    rw [left_of_ok (close_of_open hopen hlength hknown)]
    exact .single (.closes hopen)

theorem reaches_finish (hw : w.Sound) : w.Reaches (left finish w) := by
  unfold finish
  refine reaches_bind hw (reaches_close hw) ?_
  intro _ v _ hv
  refine reaches_bind hv (.single (.notes v.offset)) ?_
  intro _ u _ hu
  exact reaches_bind_looks hu looks_get fun _ _ => reaches_of_looks (looks_pure _)

/-- What closes the block and then goes on does so behind the closed block. -/
theorem reaches_close_bind {β : Type} {f : Unit → Walk β} (hw : w.Sound)
    (hf : ∀ u : Walker, u.Sound → u.isClosed = true → u.Reaches (left (f ()) u)) :
    w.Reaches (left (close >>= f) w) := by
  refine reaches_bind hw (reaches_close hw) ?_
  intro _ u hclose hu
  exact hf u hu (close_ok hclose).isClosed

/-- Passing over a construct leaves the walker as it is. -/
theorem looks_passOver (ts : List Token) : Looks (passOver ts) := by
  intro w
  rw [passOver, left_bind_looks_right fun _ => looks_pure _]
  exact looks_ofExcept _ w

/-- **A turn is a sequence of moves**, whether it succeeds or fails. -/
theorem reaches_turn {token : Token} {rest : List Token} (hversion : token.version.isSome = true)
    (hw : w.Sound) : w.Reaches (left (turn token rest) w) := by
  -- A field of some type, and what only looks behind it.
  have hfield (type : Token) {x : Walk (List Token)} (hx : Looks x) :
      w.Reaches (left (do
        let gap ← openField token type
        place token type gap (← fieldStep token type)
        x) w) := by
    refine reaches_bind hw (reaches_openField hw token type) fun gap u _ hu => ?_
    refine reaches_bind_looks hu (looks_fieldStep token type) fun step hstep => ?_
    have hfree := ((fieldStep_ok (w := u) hstep).2).isFree
    rw [left_bind_looks_right fun _ => hx]
    exact reaches_place hu hversion gap hfree
  unfold turn
  cases token.signal with
  | closes construct =>
    cases construct with
    | message =>
      refine reaches_close_bind hw fun u hu _ => ?_
      rw [left_bind_looks_right fun _ => looks_pure rest]
      exact reaches_push rfl
    | group =>
      exact reaches_close_bind hw fun u hu _ => reaches_of_looks (looks_pure rest)
    | _ => exact reaches_of_looks (looks_pure rest)
  | opens construct =>
    cases construct with
    | message =>
      rw [left_bind_looks_right fun _ => looks_pure rest]
      exact reaches_push rfl
    | field =>
      cases rest with
      | nil => exact reaches_of_looks (looks_throw _)
      | cons type rest => exact hfield type (looks_passOver _)
    | enumeration | choiceSet => exact hfield token (looks_passOver _)
    | composite =>
      refine reaches_bind hw (reaches_openField hw token token) fun gap u _ hu => ?_
      refine reaches_bind_looks hu (looks_ofExcept _) fun span _ => ?_
      refine reaches_bind_looks hu looks_inner fun nested _ => ?_
      rw [left_bind_looks_right fun _ => looks_pure _]
      exact reaches_place hu hversion gap rfl
    | group =>
      refine reaches_close_bind hw fun u hu hclosed => ?_
      refine reaches_bind_looks hu (looks_ofExcept _) fun span _ => ?_
      refine reaches_bind_looks hu looks_leading fun lead _ => ?_
      refine reaches_bind_looks hu (looks_ofExcept _) fun dimensions _ => ?_
      refine reaches_bind_looks hu looks_inner fun element _ => ?_
      rw [left_bind_looks_right fun _ => looks_pure _]
      exact .single (.follows hclosed rfl)
    | varData =>
      refine reaches_close_bind hw fun u hu hclosed => ?_
      refine reaches_bind_looks hu looks_leading fun lead _ => ?_
      rw [left_bind_looks_right fun _ => looks_passOver _]
      exact .single (.follows hclosed rfl)
  | encoding =>
    refine reaches_bind hw (reaches_openField hw token token) fun gap u _ hu => ?_
    rw [left_bind_looks_right fun _ => looks_pure rest]
    exact reaches_place hu hversion gap rfl
  | _ => exact reaches_of_looks (looks_pure rest)

/-- **A walk is a sequence of moves**, whether it succeeds or fails. -/
theorem reaches_tokens {ts : List Token} (hts : ∀ t ∈ ts, t.version.isSome = true)
    (hw : w.Sound) : w.Reaches (left (tokens ts) w) := by
  induction ts using stops.induct generalizing w with
  | case1 =>
    rw [tokens]
    exact .refl
  | case2 token rest ih =>
    rw [tokens_cons]
    refine reaches_bind hw (reaches_turn (hts token (List.mem_cons_self ..)) hw) fun more u hrun hu => ?_
    obtain ⟨-, -, rfl⟩ := turn_ok hrun
    exact ih (fun t ht => hts t ((after_suffix token rest).mem ht)) hu

end

end Walk

end SimpleBinary
