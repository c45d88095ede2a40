import SimpleBinary.Proofs.Walk.Moves

/-!
Walkers that go on after a failure.

A walker is given any lists of tokens, one call after the other, and some of them it may refuse between
the padding of a field and the field, or between the close of the block and the group that has closed
it. It stays in order all the same (`Walker.InOrder`): a walk is a sequence of moves, the moves keep the
steps in their stages, and steps in their stages are in order.
-/

set_option autoImplicit false

namespace SimpleBinary

/-! ## Steps around those that close the block -/

theorem countP_isTrailingGap_closing {isExtensible : Bool} {offset length : Int}
    {known : List (Int × Int)} :
    (closing isExtensible offset length known).countP Step.isTrailingGap ≤ 1 := by
  unfold closing
  split <;> split <;> simp [List.countP_cons, Step.isTrailingGap]

theorem countP_isSkip_closing {isExtensible : Bool} {offset length : Int}
    {known : List (Int × Int)} :
    (closing isExtensible offset length known).countP Step.isSkip =
      if isExtensible then 1 else 0 := by
  unfold closing
  split <;> split <;> rfl

/-- Steps around those that close the block do not count where none of them is of the kind. -/
theorem countP_around {p : Step → Bool} {before middle after : List Step}
    (h : ∀ s, s ∈ before ∨ s ∈ after → p s = false) :
    (before ++ middle ++ after).countP p = middle.countP p := by
  have hbefore : before.countP p = 0 := List.countP_eq_zero.mpr fun s hs => by simp [h s (.inl hs)]
  have hafter : after.countP p = 0 := List.countP_eq_zero.mpr fun s hs => by simp [h s (.inr hs)]
  rw [List.countP_append, List.countP_append]
  omega

/-- The padding that closes an extensible block has the extension skip directly behind it, where there
is no such padding around. -/
theorem exists_skip_of_trailingGap {before after earlier later : List Step} {offset length : Int}
    {known : List (Int × Int)} {gap : Step}
    (hsplit : before ++ closing true offset length known ++ after = earlier ++ gap :: later)
    (hgap : gap.isTrailingGap = true)
    (hnone : ∀ s, s ∈ before ∨ s ∈ after → s.isTrailingGap = false) :
    ∃ known rest, later = .extensionSkip known :: rest := by
  have hnot (s : Step) (hs : s ∈ before ∨ s ∈ after) : s ≠ gap := by
    rintro rfl
    rw [hnone s hs] at hgap
    cases hgap
  unfold closing at hsplit
  by_cases hshort : offset < length
  · rw [if_pos hshort, if_pos rfl, List.append_assoc] at hsplit
    have hpast : gap ∉ .extensionSkip known :: after := by
      intro hmem
      rcases List.mem_cons.mp hmem with rfl | hmem
      · cases hgap
      · exact hnot gap (.inr hmem) rfl
    obtain ⟨-, -, hlater⟩ := (List.append_cons_inj_of_notMem
      (fun hmem => hnot gap (.inl hmem) rfl) hpast).mp hsplit
    exact ⟨known, after, hlater.symm⟩
  · -- Where the block is full, no padding closes it.
    rw [if_neg hshort, if_pos rfl] at hsplit
    have hmem : gap ∈ before ++ ([] ++ [.extensionSkip known]) ++ after := by
      rw [hsplit]
      simp
    simp only [List.nil_append, List.mem_append, List.mem_singleton] at hmem
    rcases hmem with (hmem | rfl) | hmem
    · exact absurd rfl (hnot gap (.inl hmem))
    · cases hgap
    · exact absurd rfl (hnot gap (.inr hmem))

/-! ## The order of the steps -/

namespace Walker

/-- The walker after one more list of tokens, which it may have refused half way. -/
def afterWalk (w : Walker) (ts : List Token) : Walker :=
  match w.walk ts with
  | .ok _ u => u
  | .error _ u => u

/-- The walker after any number of lists of tokens. -/
def run (w : Walker) (calls : List (List Token)) : Walker :=
  calls.foldl afterWalk w

/-- What holds of a walker at any time: what closes the block is recorded once, with the extension skip
directly behind the padding and in an extensible entity only, and groups and variable data come after
it. -/
structure InOrder (w : Walker) : Prop where
  oneTrailingGap : w.plan.steps.countP Step.isTrailingGap ≤ 1
  oneSkip : w.plan.steps.countP Step.isSkip ≤ 1
  skip_iff : (∃ s ∈ w.plan.steps, s.isSkip = true) ↔
    w.plan.isExtensible = true ∧ w.isClosed = true
  skipNext : w.plan.isExtensible = true → ∀ before gap after,
    w.plan.steps = before ++ gap :: after → gap.isTrailingGap = true →
      ∃ known rest, after = .extensionSkip known :: rest
  noneWhileOpen : w.isClosed = false → ∀ s ∈ w.plan.steps, s.followsBlock = false
  noneBefore : w.plan.steps.Pairwise fun earlier later =>
    earlier.followsBlock = true → later.closesBlock = false
  zero : some 0 ∈ w.ends.map Prod.fst

/-! ## Walks as moves -/

section

variable {w u : Walker}

theorem run_append (calls more : List (List Token)) :
    w.run (calls ++ more) = (w.run calls).run more :=
  List.foldl_append

theorem afterWalk_eq {ts : List Token} :
    w.afterWalk ts = Walk.left (Walk.tokens ts >>= fun _ => Walk.finish) w := by
  have hrun : w.walk ts = (Walk.tokens ts >>= fun _ => Walk.finish) w := rfl
  rw [afterWalk, Walk.left, hrun]
  cases (Walk.tokens ts >>= fun _ => Walk.finish) w <;> rfl

theorem reaches_afterWalk {ts : List Token} (hts : ∀ t ∈ ts, t.version.isSome = true)
    (hw : w.Sound) : w.Reaches (w.afterWalk ts) := by
  rw [afterWalk_eq]
  refine Walk.reaches_bind hw (Walk.reaches_tokens hts hw) ?_
  intro _ u _ hu
  exact Walk.reaches_finish hu

theorem reaches_run {calls : List (List Token)}
    (hcalls : ∀ ts ∈ calls, ∀ t ∈ ts, t.version.isSome = true) (hw : w.Sound) :
    w.Reaches (w.run calls) := by
  induction calls generalizing w with
  | nil => exact .refl
  | cons ts calls ih =>
    have hfirst := reaches_afterWalk (hcalls ts (List.mem_cons_self ..)) hw
    have hrest := ih (fun ts hts => hcalls ts (List.mem_cons_of_mem _ hts)) (hfirst.sound hw)
    exact hfirst.trans hrest

/-- Steps that all may stand anywhere are in order while the block is open. -/
theorem inOrder_of_open (hopen : w.isClosed = false)
    (hall : ∀ s ∈ w.plan.steps, s.isFree = true) (hzero : some 0 ∈ w.ends.map Prod.fst) :
    w.InOrder := by
  -- Steps that may stand anywhere are neither padding at the end nor a skip.
  have hgap : w.plan.steps.countP Step.isTrailingGap = 0 :=
    List.countP_eq_zero.mpr fun s hs => by simp [Step.kinds_of_isFree (hall s hs)]
  have hskip : w.plan.steps.countP Step.isSkip = 0 :=
    List.countP_eq_zero.mpr fun s hs => by simp [Step.kinds_of_isFree (hall s hs)]
  constructor
  case oneTrailingGap => omega
  case oneSkip => omega
  case skip_iff =>
    rw [← List.countP_pos_iff, hskip, hopen]
    simp
  case skipNext =>
    intro _ before gap after hsteps htrailing
    have hmem : gap ∈ w.plan.steps := by
      rw [hsteps]
      simp
    rw [(Step.kinds_of_isFree (hall gap hmem)).1] at htrailing
    cases htrailing
  case noneWhileOpen => exact fun _ s hs => (Step.kinds_of_isFree (hall s hs)).2.2
  case noneBefore =>
    refine List.pairwise_of_forall_mem_list ?_
    intro _ _ later hlater _
    exact (Step.isFree_iff.mp (hall later hlater)).1
  case zero => exact hzero

/-- Steps around those that close the block once are in order. -/
theorem inOrder_of_closed {before after : List Step} {offset length : Int}
    {known : List (Int × Int)} (hclosed : w.isClosed = true)
    (hsteps : w.plan.steps = before ++ closing w.plan.isExtensible offset length known ++ after)
    (hbefore : ∀ s ∈ before, s.isFree = true) (hafter : ∀ s ∈ after, s.closesBlock = false)
    (hzero : some 0 ∈ w.ends.map Prod.fst) : w.InOrder := by
  have hgaps (s : Step) (hs : s ∈ before ∨ s ∈ after) : s.isTrailingGap = false := by
    rcases hs with hs | hs
    · exact (Step.kinds_of_isFree (hbefore s hs)).1
    · exact (Bool.or_eq_false_iff.mp (hafter s hs)).1
  have hskips (s : Step) (hs : s ∈ before ∨ s ∈ after) : s.isSkip = false := by
    rcases hs with hs | hs
    · exact (Step.kinds_of_isFree (hbefore s hs)).2.1
    · exact (Bool.or_eq_false_iff.mp (hafter s hs)).2
  -- Groups and variable data are found behind what closes the block only.
  have hfront : ∀ s ∈ before ++ closing w.plan.isExtensible offset length known,
      s.followsBlock = false := by
    intro s hs
    rcases List.mem_append.mp hs with hs | hs
    · exact (Step.kinds_of_isFree (hbefore s hs)).2.2
    · exact Step.followsBlock_of_closesBlock (closesBlock_of_mem_closing hs)
  constructor
  case oneTrailingGap =>
    rw [hsteps, countP_around hgaps]
    exact countP_isTrailingGap_closing
  case oneSkip =>
    rw [hsteps, countP_around hskips, countP_isSkip_closing]
    split <;> omega
  case skip_iff =>
    rw [← List.countP_pos_iff, hsteps, countP_around hskips, countP_isSkip_closing, hclosed]
    cases w.plan.isExtensible <;> simp
  case skipNext =>
    intro hext earlier gap later hsplit htrailing
    rw [hsplit, hext] at hsteps
    exact exists_skip_of_trailingGap hsteps.symm htrailing hgaps
  case noneWhileOpen =>
    intro hopen
    rw [hclosed] at hopen
    cases hopen
  case noneBefore =>
    rw [hsteps]
    refine List.pairwise_append.mpr ⟨List.pairwise_of_forall_mem_list ?_,
      List.pairwise_of_forall_mem_list ?_, ?_⟩
    · intro earlier hearlier _ _ hfollows
      rw [hfront earlier hearlier] at hfollows
      cases hfollows
    · exact fun _ _ later hlater _ => hafter later hlater
    · exact fun _ _ later hlater _ => hafter later hlater
  case zero => exact hzero

theorem Staged.inOrder (h : w.Staged) (hzero : some 0 ∈ w.ends.map Prod.fst) : w.InOrder := by
  cases h with
  | opened hopen hall => exact inOrder_of_open hopen hall hzero
  | shut hclosed hsteps hbefore hafter =>
    exact inOrder_of_closed hclosed hsteps hbefore hafter hzero

end

/-! ## Any number of calls -/

/-- **A walker stays in order**, whatever tokens it is given and refuses. The steps of its plan are only
added to, a closed block stays closed, and every group or variable data was recorded when the block was
closed. -/
theorem run_inOrder {plan : Plan} (hsteps : plan.steps = [])
    (hlength : plan.blockLength.isSome = true) {calls : List (List Token)}
    (hcalls : ∀ ts ∈ calls, ∀ t ∈ ts, t.version.isSome = true) :
    (run { plan } calls).InOrder ∧ (run { plan } calls).plan.isExtensible = plan.isExtensible ∧
      (∀ earlier, earlier <+: calls →
        (run { plan } earlier).plan.steps <+: (run { plan } calls).plan.steps ∧
        ((run { plan } earlier).isClosed = true → (run { plan } calls).isClosed = true)) ∧
      ∀ before s after, (run { plan } calls).plan.steps = before ++ s :: after →
        s.followsBlock = true → ∃ w, Reaches { plan } w ∧ w.plan.steps = before ∧
          w.isClosed = true ∧ (w.extend [s]).Reaches (run { plan } calls) := by
  have hsound : Sound { plan } := by
    refine ⟨hlength, ?_⟩
    intro key hkey
    rw [List.mem_singleton.mp hkey]
    rfl
  have hrun : Reaches { plan } (run { plan } calls) := reaches_run hcalls hsound
  refine ⟨?_, hrun.isExtensible, ?_, ?_⟩
  · -- A walker that has recorded nothing is in the first stage.
    have hstart : Staged { plan } := by
      refine .opened rfl ?_
      rw [hsteps]
      simp
    have hzero := hrun.keeps Moves.zero_mem (List.mem_singleton_self _)
    exact (hrun.keeps Moves.staged hstart).inOrder hzero
  · rintro earlier ⟨more, rfl⟩
    have hearlier : Reaches { plan } (run { plan } earlier) :=
      reaches_run (fun ts hts => hcalls ts (List.mem_append_left _ hts)) hsound
    have hmore : (run { plan } earlier).Reaches (run { plan } (earlier ++ more)) := by
      rw [run_append]
      exact reaches_run (fun ts hts => hcalls ts (List.mem_append_right _ hts))
        (hearlier.sound hsound)
    exact ⟨hmore.steps_prefix, hmore.keeps Moves.isClosed⟩
  · intro before s after hsplit hs
    exact hrun.recorded hsplit hs hsteps

/-! ## A sample -/

/-- The plan of a note of eight bytes, before its tokens are walked over. -/
def notePlan : Plan where
  typeName := "Note"
  kind := .message
  blockLength := some 8
  isExtensible := true
  token := none

/-- A field without an encoding behind its padding, a group that is cut off, and at last a text. The
first two are refused half way. -/
def noteCalls : List (List Token) := [
  [{ signal := .opens .field, name := "id", offset := some 2, tokenCount := some 2 },
    { signal := .closes .field, name := "id" }],
  [{ signal := .opens .group, name := "lines", tokenCount := some 9 }],
  [{ signal := .opens .varData, name := "text", tokenCount := some 6 },
    { signal := .opens .composite, name := "varText", tokenCount := some 4 },
    { signal := .encoding, name := "length", encodedLength := some 4 },
    { signal := .encoding, name := "varData" },
    { signal := .closes .composite, name := "varText" },
    { signal := .closes .varData, name := "text" }]]

/-- A note has the padding of its refused field, the steps that its refused group has left, and the
text. -/
theorem noteCalls_inOrder :
    (run { plan := notePlan } noteCalls).plan.steps.map (fun s => (s.closesBlock, s.followsBlock)) =
        [(false, false), (true, false), (true, false), (false, true)] ∧
      (run { plan := notePlan } noteCalls).InOrder ∧
      (run { plan := notePlan } (noteCalls.take 1)).plan.steps <+:
        (run { plan := notePlan } noteCalls).plan.steps := by
  have hversions : ∀ ts ∈ noteCalls, ∀ t ∈ ts, t.version.isSome = true := by
    simp [noteCalls]
  obtain ⟨horder, -, hgrows, -⟩ := @run_inOrder notePlan rfl rfl noteCalls hversions
  exact ⟨by cbv, horder, (hgrows _ (List.take_prefix 1 noteCalls)).1⟩

end Walker

end SimpleBinary
