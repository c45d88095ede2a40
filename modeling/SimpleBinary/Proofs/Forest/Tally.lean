import SimpleBinary.Proofs.Forest.Member
import SimpleBinary.Proofs.Forest.Schema
import SimpleBinary.Proofs.Forest.Uncounted

/-!
What a walk leaves for members.

A plan has a tally, the number of members that its steps stand for (`Plan.tally`), which does not depend
on counts. The walk over a forest leaves a step for each member. The walk over tokens may pass over some,
but it never reads one twice: the tally of its plan is at most the number of members that the tokens open
(`Walk.tally_le`).
-/

set_option autoImplicit false

namespace SimpleBinary

open Node (openToken closeToken tokensAll sizeAll)

/-! ## The tally of a plan -/

mutual

/-- The number of members that a step stands for, those inside of it included. -/
def Step.tally : Step → Nat
  | .primitive field _ => if field.opensMember then 1 else 0
  | .typed _ _ field _ _ => if field.opensMember then 1 else 0
  | .group _ _ _ element => 1 + Plan.tally element
  | .varData _ _ _ => 1
  | .gap _ _ _ | .extensionSkip _ | .encodeValidation | .decodeValidation => 0

/-- The number of members that steps stand for. -/
def Step.tallyAll : List Step → Nat
  | [] => 0
  | s :: rest => s.tally + Step.tallyAll rest

/-- The number of members that the steps of a plan stand for. -/
def Plan.tally : Plan → Nat
  | ⟨_, _, _, _, _, steps, _⟩ => Step.tallyAll steps

end

namespace Step

theorem tallyAll_append (a b : List Step) : tallyAll (a ++ b) = tallyAll a + tallyAll b := by
  induction a with
  | nil => rw [List.nil_append, tallyAll, Nat.zero_add]
  | cons s rest ih => rw [List.cons_append, tallyAll, tallyAll, ih, Nat.add_assoc]

/-- Only children count. -/
theorem tallyAll_filter (steps : List Step) : tallyAll (steps.filter isChild) = tallyAll steps := by
  induction steps with
  | nil => rfl
  | cons s rest ih => cases s <;> simp [List.filter_cons, isChild, tallyAll, tally, ih]

theorem isChild_uncounted (s : Step) : s.uncounted.isChild = s.isChild := by
  cases s with
  | typed _ _ _ _ nested => cases nested <;> rfl
  | _ => rfl

theorem uncountedAll_filter (steps : List Step) :
    uncountedAll (steps.filter isChild) = (uncountedAll steps).filter isChild := by
  induction steps with
  | nil => rfl
  | cons s rest ih =>
    rw [uncountedAll, List.filter_cons, List.filter_cons, isChild_uncounted]
    split
    · rw [uncountedAll, ih]
    · exact ih

end Step

theorem Plan.tally_eq (p : Plan) : p.tally = Step.tallyAll p.children := by
  rw [children, Step.tallyAll_filter]
  cases p
  rw [tally]

mutual

/-- The tally does not depend on counts. -/
theorem Step.tally_uncounted : ∀ s : Step, s.uncounted.tally = s.tally
  | .primitive _ _ => rfl
  | .typed _ _ _ _ none => rfl
  | .typed _ _ _ _ (some _) => rfl
  | .group _ _ _ element => by
    rw [Step.uncounted, Step.tally, Step.tally, Plan.tally_uncounted element]
  | .varData _ _ _ => rfl
  | .gap _ _ _ => rfl
  | .extensionSkip _ => rfl
  | .encodeValidation => rfl
  | .decodeValidation => rfl

theorem Step.tallyAll_uncounted : ∀ steps : List Step,
    Step.tallyAll (Step.uncountedAll steps) = Step.tallyAll steps
  | [] => rfl
  | s :: rest => by
    rw [Step.uncountedAll, Step.tallyAll, Step.tallyAll, s.tally_uncounted,
      Step.tallyAll_uncounted rest]

theorem Plan.tally_uncounted : ∀ p : Plan, p.uncounted.tally = p.tally
  | ⟨_, _, _, _, _, steps, _⟩ => Step.tallyAll_uncounted steps

end

theorem Step.tallyAll_eq_of_uncounted {a b : List Step} (h : uncountedAll a = uncountedAll b) :
    tallyAll a = tallyAll b := by
  rw [← tallyAll_uncounted a, h, tallyAll_uncounted b]

theorem Plan.uncountedAll_children {p q : Plan} (h : p.uncounted = q.uncounted) :
    Step.uncountedAll p.children = Step.uncountedAll q.children := by
  rw [children, children, Step.uncountedAll_filter, Step.uncountedAll_filter,
    (uncounted_eq_iff.mp h).2.2.2.2.2.1]

/-! ## What turns leave -/

theorem Walker.Leaves.unique {w u : Walker} {a b : List Step} (ha : w.Leaves a u)
    (hb : w.Leaves b u) : a = b := by
  obtain ⟨first, hfirst, rfl⟩ := ha
  obtain ⟨second, hsecond, rfl⟩ := hb
  have hsteps := congrArg Plan.steps (hfirst.symm.trans hsecond)
  rw [extend_steps, extend_steps] at hsteps
  rw [List.append_cancel_left hsteps]

namespace Walk

variable {w u : Walker} {token : Token} {rest ts : List Token}

theorem after_suffix_rest (token : Token) (rest : List Token) : after token rest <:+ rest := by
  rcases List.suffix_cons_iff.mp (after_suffix token rest) with heq | hsuffix
  · have hle := length_after_le token rest
    rw [heq, List.length_cons] at hle
    omega
  · exact hsuffix

/-- A field that a walk meets at a token is that of the token. -/
theorem eq_of_stopAt {field type : Token} (h : stopAt token rest = some (.field field type)) :
    field = token ∧ token.signal ≠ .opens .group ∧ token.signal ≠ .opens .varData := by
  unfold stopAt at h
  cases hs : token.signal with
  | opens construct =>
    cases construct with
    | field =>
      rw [hs] at h
      obtain ⟨_, -, hstop⟩ := Option.map_eq_some_iff.mp h
      cases hstop
      simp
    | _ => simp_all
  | closes construct => cases construct <;> simp_all
  | _ => simp_all

end Walk

namespace Walker

variable {w u : Walker} {token : Token} {rest : List Token}

/-- A turn that is no group leaves a step exactly if the token opens a member or is met as a field. -/
theorem Turn.leaves_of_ne_group (h : w.Turn token rest u) (hs : token.signal ≠ .opens .group) :
    ∃ steps, w.Leaves steps u ∧ Step.tallyAll steps = (if token.opensMember then 1 else 0) ∧
      (token.opensMember = true → ∃ step, steps = [step]) := by
  -- Where the token opens no member, the turn leaves no step that counts.
  have hnone {v : Walker} (hleaves : w.Leaves [] v) (hopens : token.opensMember = false) :
      ∃ steps, w.Leaves steps v ∧ Step.tallyAll steps = (if token.opensMember then 1 else 0) ∧
        (token.opensMember = true → ∃ step, steps = [step]) :=
    ⟨[], hleaves, by simp [hopens, Step.tallyAll], by simp [hopens]⟩
  cases h with
  | messageOpens hsignal => exact hnone (leaves_extend ..) (by simp [Token.opensMember, hsignal])
  | messageCloses hsignal hcloses =>
    exact hnone (hcloses.leaves.trans (leaves_extend ..)) (by simp [Token.opensMember, hsignal])
  | groupCloses hsignal hcloses => exact hnone hcloses.leaves (by simp [Token.opensMember, hsignal])
  | passes hopens _ =>
    refine hnone w.leaves_self ?_
    unfold Token.opensMember
    cases hsignal : token.signal with
    | opens construct => exact absurd hsignal (hopens construct)
    | _ => rfl
  | group hsignal => exact absurd hsignal hs
  | varData hsignal hcloses =>
    exact ⟨_, hcloses.leaves.trans (leaves_extend ..), by simp [Token.opensMember, hsignal]; rfl,
      fun _ => ⟨_, rfl⟩⟩
  | @field field type step _ hstop hrecords hplaces =>
    obtain ⟨rfl, -, -⟩ := Walk.eq_of_stopAt hstop
    have hchild : step.isChild = true ∧ step.tally = if field.opensMember then 1 else 0 := by
      cases hrecords <;> exact ⟨rfl, rfl⟩
    refine ⟨_, hplaces.leaves hchild.1, ?_, fun _ => ⟨step, rfl⟩⟩
    rw [Step.tallyAll, Step.tallyAll, hchild.2, Nat.add_zero]

/-- A group leaves a step with the plan of its elements. -/
theorem Turn.leaves_of_group (h : w.Turn token rest u) (hs : token.signal = .opens .group) :
    ∃ (span : SpanLength (token :: rest)) (dimensions : SpanLength rest) (blank element : Plan)
      (blockLength numInGroup : Token),
      spanLength (token :: rest) = .ok span ∧ spanLength rest = .ok dimensions ∧ blank.steps = [] ∧
        blank.ofTokens (((token :: rest).take span.1).drop (1 + dimensions.1)) = .ok element ∧
          w.Leaves [.group token blockLength numInGroup element] u := by
  cases h with
  | group _ hcloses hspan hdimensions helement =>
    exact ⟨_, _, _, _, _, _, hspan, hdimensions, rfl, helement,
      hcloses.leaves.trans (leaves_extend ..)⟩
  | field hstop => exact absurd hs (Walk.eq_of_stopAt hstop).2.1
  | passes hopens => exact absurd hs (hopens _)
  | messageOpens hsignal => simp [hs] at hsignal
  | messageCloses hsignal => simp [hs] at hsignal
  | groupCloses hsignal => simp [hs] at hsignal
  | varData hsignal => simp [hs] at hsignal

end Walker

/-! ## Walks over tokens -/

namespace Walk

variable {w u : Walker} {ts : List Token} {token : Token}

/-- The children of a plan are those that its walk leaves. -/
theorem fresh_leaves {blank plan : Plan} {walk : Walk Unit} (hblank : blank.steps = [])
    (h : fresh blank walk = .ok plan) :
    ∃ u, walk { plan := blank } = .ok () u ∧
      ∀ {steps}, ({ plan := blank } : Walker).Leaves steps u → plan.children = steps := by
  obtain ⟨u, v, hrun, hcloses, rfl⟩ := fresh_ok h
  refine ⟨u, hrun, fun {steps} hleaves => ?_⟩
  obtain ⟨more, hplan, hmore⟩ := hleaves.trans hcloses.leaves
  rw [List.append_nil] at hmore
  rw [hplan, Plan.children, Walker.extend_steps, hblank, List.nil_append, hmore]

theorem memberCount_take_add_drop (ts : List Token) (n : Nat) :
    memberCount (ts.take n) + memberCount (ts.drop n) = memberCount ts := by
  rw [← memberCount_append, List.take_append_drop]

/-- Behind its first token, a construct opens one member less. -/
theorem memberCount_inside {n : Nat} (hhead : ts.head? = some token)
    (htoken : token.opensMember = true) (hn : 0 < n) (more : Nat) :
    1 + memberCount ((ts.take n).drop (1 + more)) ≤ memberCount (ts.take n) := by
  obtain ⟨rest, rfl⟩ := List.head?_eq_some_iff.mp hhead
  obtain ⟨n, rfl⟩ := Nat.exists_eq_succ_of_ne_zero (Nat.ne_of_gt hn)
  have hle := (List.drop_sublist more (rest.take n)).countP_le (p := Token.opensMember)
  rw [List.take_succ_cons, Nat.add_comm 1 more, List.drop_succ_cons, memberCount, memberCount,
    List.countP_cons, htoken, if_pos rfl]
  omega

/-- **No member is read twice.** A walk leaves steps for no more members than its tokens open. -/
theorem tally_le (h : tokens ts w = .ok () u) :
    ∃ steps, w.Leaves steps u ∧ Step.tallyAll steps ≤ memberCount ts := by
  induction hn : ts.length using Nat.strongRecOn generalizing ts w u with
  | ind n ih =>
    cases ts with
    | nil =>
      rw [tokens] at h
      obtain ⟨-, rfl⟩ := pure_ok.mp h
      exact ⟨[], w.leaves_self, by simp [Step.tallyAll]⟩
    | cons token rest =>
      rw [List.length_cons] at hn
      obtain ⟨v, hfirst, -, hrest⟩ := tokens_cons_ok h
      obtain ⟨later, hlater, hlaterTally⟩ :=
        ih _ (Nat.lt_of_le_of_lt (length_after_le token rest) (by omega)) hrest rfl
      by_cases hs : token.signal = .opens .group
      · obtain ⟨span, dimensions, blank, element, blockLength, numInGroup, hspan, -, hblank, helement,
          hleaves⟩ := hfirst.leaves_of_group hs
        refine ⟨_, hleaves.trans hlater, ?_⟩
        obtain ⟨_, hinside, hchildren⟩ := fresh_leaves hblank helement
        obtain ⟨steps, hsteps, htally⟩ := ih _ (by
          have := span.2.1
          simp only [List.length_drop, List.length_take, List.length_cons]
          omega) hinside rfl
        -- The elements and what comes behind the group share the tokens behind the first one.
        have hfront : 1 + memberCount (((token :: rest).take span.1).drop (1 + dimensions.1)) ≤
            memberCount ((token :: rest).take span.1) :=
          memberCount_inside rfl (by simp [Token.opensMember, hs]) span.2.1 dimensions.1
        have hsplit := memberCount_take_add_drop (token :: rest) span.1
        rw [after_of_span hs (by simp) hspan] at hlaterTally
        rw [Step.tallyAll_append, Step.tallyAll, Step.tallyAll, Step.tally, Plan.tally_eq,
          hchildren hsteps]
        omega
      · obtain ⟨steps, hleaves, htally, -⟩ := hfirst.leaves_of_ne_group hs
        refine ⟨_, hleaves.trans hlater, ?_⟩
        have hsublist := (after_suffix_rest token rest).sublist.countP_le (p := Token.opensMember)
        rw [Step.tallyAll_append, htally, memberCount, List.countP_cons]
        rw [memberCount] at hlaterTally
        omega

/-! ## Walks over forests -/

variable {opening closing : Entry} {parts members : List Node}

/-- A field or variable data leaves a step. -/
theorem node_single_ok {construct : Construct} (hconstruct : construct = .field ∨ construct = .varData)
    (h : node (.span construct opening parts closing) w = .ok () u) :
    ∃ step, w.Leaves [step] u ∧ step.tally = 1 := by
  rcases hconstruct with rfl | rfl
  · rw [node] at h
    obtain ⟨gap, v, hopen, h₁⟩ := bind_ok.mp h
    obtain ⟨step, _, hstep, hplace⟩ := bind_ok.mp h₁
    obtain ⟨rfl, hrecords⟩ := fieldStep_ok (w := w) hstep
    refine ⟨step, (place_ok hopen hplace).leaves ?_, ?_⟩
    · cases hrecords <;> rfl
    · cases hrecords <;> simp [Step.tally, Token.opensMember]
  · rw [node] at h
    obtain ⟨_, v, hclose, h₁⟩ := bind_ok.mp h
    obtain ⟨⟨length, data⟩, _, hleading, hpush⟩ := bind_ok.mp h₁
    obtain ⟨rfl, -⟩ := leading_ok hleading
    obtain rfl := push_ok.mp hpush
    exact ⟨_, (close_ok hclose).leaves.trans (Walker.leaves_extend ..), rfl⟩

/-- A group leaves a step with the plan of its elements. -/
theorem node_group_ok {dimensions : Node}
    (h : node (.span .group opening (dimensions :: members) closing) w = .ok () u) :
    ∃ (blank element : Plan) (blockLength numInGroup : Token) (v : Walker), blank.steps = [] ∧
      nodes members { plan := blank } = .ok () v ∧
      (∀ {steps}, ({ plan := blank } : Walker).Leaves steps v → element.children = steps) ∧
      w.Leaves [.group (openToken .group opening (dimensions :: members)) blockLength numInGroup element]
        u := by
  rw [node] at h
  obtain ⟨_, v, hclose, h₁⟩ := bind_ok.mp h
  obtain ⟨⟨blockLength, numInGroup⟩, _, hleading, h₂⟩ := bind_ok.mp h₁
  obtain ⟨rfl, -⟩ := leading_ok hleading
  obtain ⟨element, _, hinner, hpush⟩ := bind_ok.mp h₂
  obtain ⟨helement, rfl⟩ := inner_ok hinner
  obtain rfl := push_ok.mp hpush
  obtain ⟨_, hwalk, hchildren⟩ := fresh_leaves rfl helement
  obtain ⟨_, v', hmembers, hclosed⟩ := bind_ok.mp hwalk
  refine ⟨_, element, _, _, v', rfl, hmembers, fun hleaves => hchildren ?_,
    (close_ok hclose).leaves.trans (Walker.leaves_extend ..)⟩
  have hall := hleaves.trans (close_ok hclosed).leaves
  rwa [List.append_nil] at hall

end Walk

namespace AreMembers

variable {w u : Walker} {parts : List Node}

/-- The walk over members leaves a step for each. -/
theorem tally_eq (h : AreMembers parts) (hwalk : Walk.nodes parts w = .ok () u) :
    ∃ steps, w.Leaves steps u ∧ Step.tallyAll steps = memberCount (tokensAll parts) := by
  induction h generalizing w u with
  | nil =>
    obtain ⟨-, rfl⟩ := Walk.pure_ok.mp hwalk
    exact ⟨[], w.leaves_self, rfl⟩
  | single hconstruct hplain _ ih =>
    rw [Walk.nodes] at hwalk
    obtain ⟨_, v, hfirst, hrest⟩ := Walk.bind_ok.mp hwalk
    obtain ⟨step, hleaves, htally⟩ := Walk.node_single_ok hconstruct hfirst
    obtain ⟨steps, hleavesRest, htallyRest⟩ := ih hrest
    refine ⟨step :: steps, hleaves.trans hleavesRest, ?_⟩
    rw [Step.tallyAll, htally, htallyRest, tokensAll, memberCount_append,
      memberCount_single hconstruct hplain]
  | group hatoms _ _ ihmembers ihrest =>
    rw [Walk.nodes] at hwalk
    obtain ⟨_, v, hfirst, hrest⟩ := Walk.bind_ok.mp hwalk
    obtain ⟨blank, element, _, _, v', -, hmembers, hchildren, hleaves⟩ := Walk.node_group_ok hfirst
    -- The element of the group has a step for each member inside, and the group is one step more.
    obtain ⟨inside, hinside, htally⟩ := ihmembers hmembers
    obtain ⟨steps, hleavesRest, htallyRest⟩ := ihrest hrest
    refine ⟨_, hleaves.trans hleavesRest, ?_⟩
    rw [Step.tallyAll_append, Step.tallyAll, Step.tallyAll, Step.tally, Plan.tally_eq,
      hchildren hinside, htally, htallyRest, tokensAll, memberCount_append, memberCount_group hatoms,
      Nat.add_zero]

end AreMembers

/-! ## What plans that are the same say of counts -/

namespace Walk

variable {w u : Walker} {token : Token} {ts : List Token}

/-- Ends of groups leave nothing. -/
theorem closeGroups_ok {ends : List Token} (hends : CloseGroups ends)
    (h : tokens (ends ++ ts) w = .ok () u) : ∃ v, w.Leaves [] v ∧ tokens ts v = .ok () u := by
  induction ends generalizing w with
  | nil => exact ⟨w, w.leaves_self, h⟩
  | cons e rest ih =>
    rw [List.cons_append, tokens_closes (hends e (List.mem_cons_self ..))] at h
    obtain ⟨_, v, hclose, h₁⟩ := bind_ok.mp h
    obtain ⟨v', hleaves, hrest⟩ := ih (fun t ht => hends t (List.mem_cons_of_mem _ ht)) h₁
    exact ⟨v', (close_ok hclose).leaves.trans hleaves, hrest⟩

variable {all rest : List Token} {start stop : Nat}

/-- A field or variable data leaves a step, and its count says where the walk goes on. -/
theorem single_ok {construct : Construct} (hconstruct : construct = .field ∨ construct = .varData)
    (hstart : all.drop start = token :: rest) (hlt : start < stop)
    (hs : token.signal = .opens construct) (h : tokens (cut all start stop) w = .ok () u) :
    ∃ place step v, endIndex all start = .ok place ∧ start < place ∧ place ≤ stop ∧
      w.Leaves [step] v ∧ tokens (cut all place stop) v = .ok () u := by
  have hslice := cut_cons hstart hlt
  rw [hslice] at h
  obtain ⟨v, hturn, hend, hrest⟩ := tokens_cons_ok h
  have hmessage : construct ≠ .message := by rcases hconstruct with rfl | rfl <;> decide
  obtain ⟨span, hspan⟩ := hend construct hs hmessage
  obtain ⟨steps, hleaves, -, hone⟩ := hturn.leaves_of_ne_group (by
    rw [hs]
    rcases hconstruct with rfl | rfl <;> decide)
  obtain ⟨step, rfl⟩ := hone (by rcases hconstruct with rfl | rfl <;> simp [Token.opensMember, hs])
  have hdrop (n : Nat) : (token :: cut all (start + 1) stop).drop n = cut all (start + n) stop := by
    rw [← hslice, drop_cut]
  rw [after_of_span hs hmessage hspan, hdrop] at hrest
  obtain ⟨hplace, hstop⟩ := endIndex_of_cut hslice.symm hspan
  have hpositive := span.2.1
  exact ⟨_, step, v, hplace, by omega, hstop, hleaves, hrest⟩

/-- A group leaves a step with the plan of its elements. Its count says where the walk goes on, and that
of the dimensions where the elements begin. -/
theorem group_ok (hstart : all.drop start = token :: rest) (hlt : start < stop)
    (hs : token.signal = .opens .group) (h : tokens (cut all start stop) w = .ok () u) :
    ∃ place inside blockLength numInGroup element v v' z, endIndex all start = .ok place ∧
      start < place ∧ place ≤ stop ∧ endIndex all (start + 1) = .ok inside ∧ start < inside ∧
      tokens (cut all inside place) v' = .ok () z ∧
      (∀ {steps}, v'.Leaves steps z → element.children = steps) ∧
      w.Leaves [.group token blockLength numInGroup element] v ∧
      tokens (cut all place stop) v = .ok () u := by
  have hslice := cut_cons hstart hlt
  rw [hslice] at h
  obtain ⟨v, hturn, -, hrest⟩ := tokens_cons_ok h
  obtain ⟨span, dimensions, blank, element, blockLength, numInGroup, hspan, hdimensions, hblank,
    helement, hleaves⟩ := hturn.leaves_of_group hs
  obtain ⟨hplace, hstop⟩ := endIndex_of_cut hslice.symm hspan
  obtain ⟨hinside, -⟩ := endIndex_of_cut rfl hdimensions
  have hdrop (n : Nat) : (token :: cut all (start + 1) stop).drop n = cut all (start + n) stop := by
    rw [← hslice, drop_cut]
  have htake (n : Nat) (hn : start + n ≤ stop) :
      (token :: cut all (start + 1) stop).take n = cut all start (start + n) := by
    rw [← hslice, take_cut hn]
  rw [after_of_span hs (by simp) hspan, hdrop] at hrest
  rw [htake _ hstop, drop_cut, ← Nat.add_assoc] at helement
  obtain ⟨z, hwalk, hchildren⟩ := fresh_leaves hblank helement
  have hpositive := span.2.1
  exact ⟨_, _, blockLength, numInGroup, element, v, _, z, hplace, by omega, hstop, hinside, by omega,
    hwalk, hchildren, hleaves, hrest⟩

end Walk

end SimpleBinary
