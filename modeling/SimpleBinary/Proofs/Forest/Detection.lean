import SimpleBinary.Proofs.Forest.Tally
import SimpleBinary.Proofs.Forest.Agreement

/-!
Which counts change a plan.

A count is compared with the kind of the token that it leads to, and with nothing else. So a count that is
accepted may lead to the end of another construct of the kind, and members on the way are lost
(`twoByteMessage_six`). Counts that lead to the end of their own construct, wherever the walk takes them,
do no harm. In a message that is made of members there is an exact measure: a plan is the one that the
brackets show exactly if every count that is taken takes in as many members as there are
(`Plan.refusedOrSame_iff`). One direction follows the walk over the tokens and that over the forest side
by side (`AreMembers.refines_of_countMembers`). The other one counts what is left over: a walk never reads
a member twice, so a member that a count takes in too much is missing behind it
(`AreMembers.countMembers_of_same`).
-/

set_option autoImplicit false

namespace SimpleBinary

open Node (openToken closeToken tokensAll sizeAll)

/-! ## What plans that are the same say of counts -/

/-- Whether a walk over tokens and one over members may leave the same steps, apart from counts. -/
def LeaveSame (ts : List Token) (parts : List Node) : Prop :=
  ∃ w u v z steps others, Walk.tokens ts w = .ok () u ∧ w.Leaves steps u ∧
    Walk.nodes parts v = .ok () z ∧ v.Leaves others z ∧
      Step.uncountedAll steps = Step.uncountedAll others

namespace LeaveSame

variable {all ends back ts : List Token} {parts members rest : List Node} {start stop : Nat}
  {opening closing : Entry}

/-- Where the steps are the same, no member is lost. -/
theorem memberCount_le (h : LeaveSame ts parts) (hparts : AreMembers parts) :
    memberCount (tokensAll parts) ≤ memberCount ts := by
  obtain ⟨w, u, v, z, steps, others, hwalk, hsteps, hforest, hothers, hsame⟩ := h
  obtain ⟨left, hleft, htally⟩ := Walk.tally_le hwalk
  obtain ⟨known, hknown, hcount⟩ := hparts.tally_eq hforest
  obtain rfl := hsteps.unique hleft
  obtain rfl := hothers.unique hknown
  rw [← hcount, ← Step.tallyAll_eq_of_uncounted hsame]
  exact htally

/-- Behind a field or variable data, the steps are the same again. -/
theorem single {construct : Construct} (hconstruct : construct = .field ∨ construct = .varData)
    (hstart : all.drop start = (Node.span construct opening parts closing).tokens ++ back)
    (hlt : start < stop) (hends : CloseGroups ends) (hrest : AreMembers rest)
    (h : LeaveSame (ends ++ cut all start stop) (.span construct opening parts closing :: rest)) :
    ∃ place, endIndex all start = .ok place ∧ start < place ∧ place ≤ stop ∧
      LeaveSame (cut all place stop) rest := by
  obtain ⟨w, u, v, z, steps, others, hwalk, hsteps, hforest, hothers, hsame⟩ := h
  obtain ⟨w₁, hskipped, hwalk₁⟩ := Walk.closeGroups_ok hends hwalk
  obtain ⟨place, step, w₂, hplace, hforward, hstop, hstep, hwalk₂⟩ := Walk.single_ok hconstruct
    (hstart.trans (Walk.tokens_span_append ..)) hlt (Node.signal_openToken ..) hwalk₁
  obtain ⟨later, hlater, -⟩ := Walk.tally_le hwalk₂
  obtain rfl := hsteps.unique (hskipped.trans (hstep.trans hlater))
  rw [Walk.nodes] at hforest
  obtain ⟨_, v₁, hnode, hnodes⟩ := Walk.bind_ok.mp hforest
  obtain ⟨step', hstep', -⟩ := Walk.node_single_ok hconstruct hnode
  obtain ⟨later', hlater', -⟩ := hrest.tally_eq hnodes
  obtain rfl := hothers.unique (hstep'.trans hlater')
  exact ⟨place, hplace, hforward, hstop, _, _, _, _, _, _, hwalk₂, hlater, hnodes, hlater',
    (List.cons.inj hsame).2⟩

/-- Behind a group and in it, the steps are the same again. -/
theorem group {dimensions : Node}
    (hstart : all.drop start = (Node.group opening dimensions members closing).tokens ++ back)
    (hlt : start < stop) (hends : CloseGroups ends) (hmembers : AreMembers members)
    (hrest : AreMembers rest)
    (h : LeaveSame (ends ++ cut all start stop) (.group opening dimensions members closing :: rest)) :
    ∃ place inside, endIndex all start = .ok place ∧ start < place ∧ place ≤ stop ∧
      endIndex all (start + 1) = .ok inside ∧ start < inside ∧
      LeaveSame (cut all inside place) members ∧ LeaveSame (cut all place stop) rest := by
  obtain ⟨w, u, v, z, steps, others, hwalk, hsteps, hforest, hothers, hsame⟩ := h
  obtain ⟨w₁, hskipped, hwalk₁⟩ := Walk.closeGroups_ok hends hwalk
  obtain ⟨place, inside, blockLength, numInGroup, element, w₂, w₃, u₃, hplace, hforward, hstop, hfirst,
    hinward, hwalkInside, hchildren, hstep, hwalk₂⟩ :=
    Walk.group_ok (hstart.trans (Walk.tokens_span_append ..)) hlt (Node.signal_openToken ..) hwalk₁
  obtain ⟨inner, hinner, -⟩ := Walk.tally_le hwalkInside
  obtain ⟨later, hlater, -⟩ := Walk.tally_le hwalk₂
  -- What the walk has left is the step of the group and what it leaves later, and so it is for the tree.
  obtain rfl := hsteps.unique (hskipped.trans (hstep.trans hlater))
  rw [Walk.nodes] at hforest
  obtain ⟨_, v₁, hnode, hnodes⟩ := Walk.bind_ok.mp hforest
  obtain ⟨_, element', _, _, v₂, -, hforestInside, hchildren', hstep'⟩ := Walk.node_group_ok hnode
  obtain ⟨inner', hinner', -⟩ := hmembers.tally_eq hforestInside
  obtain ⟨later', hlater', -⟩ := hrest.tally_eq hnodes
  obtain rfl := hothers.unique (hstep'.trans hlater')
  obtain ⟨hgroup, hlaterSame⟩ : _ ∧ Step.uncountedAll later = Step.uncountedAll later' :=
    List.cons.inj hsame
  have hinnerSame : Step.uncountedAll inner = Step.uncountedAll inner' := by
    rw [← hchildren hinner, ← hchildren' hinner']
    exact Plan.uncountedAll_children (Step.group.inj hgroup).2.2.2
  exact ⟨place, inside, hplace, hforward, hstop, hfirst, hinward,
    ⟨_, _, _, _, _, _, hwalkInside, hinner, hforestInside, hinner', hinnerSame⟩,
    _, _, _, _, _, _, hwalk₂, hlater, hnodes, hlater', hlaterSame⟩

end LeaveSame

section

variable {all : List Token} {start inside place stop members behind : Nat}

/-- Where a walk finds all members of a group in it and all others behind it, the count of the group takes
in its members, and the one of the dimensions none of them. -/
theorem counts_of_tally {first : Token} {rest : List Token} (hstart : all.drop start = first :: rest)
    (hfirst : first.opensMember = true) (hinside : start < inside) (hplace : start < place)
    (hstop : place ≤ stop) (hmembers : members ≤ memberCount (cut all inside place))
    (hbehind : behind ≤ memberCount (cut all place stop))
    (hall : memberCount (cut all start stop) = 1 + members + behind) :
    memberCount (cut all start place) = 1 + members ∧
      (0 < members → memberCount (cut all (start + 1) inside) = 0) := by
  have hone : memberCount (cut all start (start + 1)) = 1 := by
    rw [cut_eq_take, Nat.add_sub_cancel_left, hstart]
    simp [memberCount, hfirst]
  rw [cut_append (Nat.le_of_lt hplace) hstop, memberCount_append] at hall
  have hfront := congrArg memberCount (@cut_append all _ _ _ (Nat.le_succ start) hplace)
  rw [memberCount_append, Nat.succ_eq_add_one, hone] at hfront
  by_cases hle : inside ≤ place
  · have hback := congrArg memberCount (@cut_append all _ _ _ hinside hle)
    rw [memberCount_append, Nat.succ_eq_add_one] at hback
    omega
  · have hnone : memberCount (cut all inside place) = 0 := by
      rw [cut_of_le (Nat.le_of_not_le hle)]
      rfl
    omega

end

/-- The first of some members, and what is behind it. -/
theorem drop_first {all tail : List Token} {start : Nat} {n : Node} {rest : List Node}
    (hstart : all.drop start = tokensAll (n :: rest) ++ tail) :
    all.drop start = n.tokens ++ (tokensAll rest ++ tail) ∧
      all.drop (start + n.size) = tokensAll rest ++ tail := by
  have hwhole : all.drop start = n.tokens ++ (tokensAll rest ++ tail) := by
    rw [hstart, tokensAll, List.append_assoc]
  have hbehind := Node.drop_add_of_append _ hwhole
  rw [Node.length_tokens] at hbehind
  exact ⟨hwhole, hbehind⟩

/-- Where the count of a group leads, members or ends of groups begin. -/
theorem boundary_of_endIndex {all tail : List Token} {start place : Nat} {opening closing : Entry}
    {parts : List Node}
    (hgroups : ∀ place t, all[place]? = some t → t.signal = .closes .group →
      Boundary (all.drop (place + 1)))
    (hstart : all.drop start = (Node.span .group opening parts closing).tokens ++ tail)
    (hplace : endIndex all start = .ok place) : Boundary (all.drop place) := by
  obtain ⟨t, ht, hcloses, hforward, -⟩ :=
    last_of_endIndex (hstart.trans (Walk.tokens_span_append ..)) (Node.signal_openToken ..) hplace
  have hbehind := hgroups _ _ ht hcloses
  rwa [Nat.sub_add_cancel (by omega)] at hbehind

namespace AreMembers

variable {all : List Token}

/-- **Plans tell of counts.** If a walk over tokens leaves for members what the walk over these leaves, its
counts take in as many members as there are. -/
theorem countMembers_of_same {parts : List Node} (h : AreMembers parts)
    (hgroups : ∀ place t, all[place]? = some t → t.signal = .closes .group →
      Boundary (all.drop (place + 1)))
    {start cursor stop : Nat} {tail : List Token} (hstart : all.drop start = tokensAll parts ++ tail)
    (htail : Boundary tail) (hstands : Stands all parts start cursor stop)
    (hsame : LeaveSame (cut all cursor stop) parts) :
    Node.CountMembers all (Node.memberSpansAll start parts) := by
  induction h generalizing start cursor stop tail with
  | nil => simp [Node.memberSpansAll, Node.CountMembers]
  | @single construct opening closing parts rest hconstruct hplain hrest ih =>
    have hparts : AreMembers (.span construct opening parts closing :: rest) :=
      .single hconstruct hplain hrest
    obtain ⟨hwhole, hbehind⟩ := drop_first hstart
    have hboundary : Boundary (tokensAll rest ++ tail) := hrest.boundary htail
    obtain ⟨hlt, hsplit, hcount⟩ := hstands.split hparts (by simp)
    rw [tokensAll, memberCount_append, memberCount_single hconstruct hplain] at hcount
    rw [hsplit] at hsame
    obtain ⟨place, hplace, hforward, hstop, hlater⟩ :=
      hsame.single hconstruct hwhole hlt (hstands.ends (by simp)).2 hrest
    -- All members behind are found behind, so the count takes in no more than one.
    have hfew : memberCount (cut all start place) ≤ 1 := by
      have hfound := hlater.memberCount_le hrest
      rw [cut_append (Nat.le_of_lt hforward) hstop, memberCount_append] at hcount
      omega
    obtain rfl := stop_eq_of_single hconstruct hplain hwhole hboundary hplace hfew
    rw [Node.memberSpansAll, Node.memberSpans_single hconstruct, List.singleton_append,
      Node.countMembers_cons]
    refine ⟨fun other hother => ?_, ?_⟩
    · rw [Except.ok.inj (hother.symm.trans hplace)]
    · refine ih hbehind htail (hstands.behind hparts (hbehind ▸ hboundary) (Nat.le_of_lt hforward) hstop
        ?_ fun _ => ⟨Nat.le_refl _, ?_⟩) hlater
      · rw [← Node.length_tokens, cut_of_drop hwhole]
      · rw [cut_of_le (Nat.le_refl _)]
        simp [CloseGroups]
  | @group opening first last closing atoms members rest hatoms hmembers hrest ihmembers ihrest =>
    have hparts : AreMembers (.group opening (.composite first atoms last) members closing :: rest) :=
      .group hatoms hmembers hrest
    obtain ⟨hwhole, hbehind⟩ := drop_first hstart
    have hopening := hwhole.trans (Walk.tokens_span_append ..)
    have hboundary : Boundary (tokensAll rest ++ tail) := hrest.boundary htail
    obtain ⟨hlt, hsplit, hcount⟩ := hstands.split hparts (by simp)
    rw [tokensAll, memberCount_append, memberCount_group hatoms] at hcount
    rw [hsplit] at hsame
    obtain ⟨place, inside, hplace, hforward, hstop, hfirst, hinward, hinner, hlater⟩ :=
      hsame.group hwhole hlt (hstands.ends (by simp)).2 hmembers hrest
    -- All members of the group are found in it and all others behind, so the counts take in no more.
    obtain ⟨htaken, hnone⟩ := counts_of_tally hopening (by simp [Token.opensMember]) hinward hforward
      hstop (hinner.memberCount_le hmembers) (hlater.memberCount_le hrest) hcount
    rw [← memberCount_group hatoms] at htaken
    have hgroup := boundary_of_endIndex hgroups hwhole hplace
    -- Only in a group that has members, the count of the dimensions matters.
    have hinnerCounts : Node.CountMembers all
        ((if members.isEmpty then [] else [(start + 1, start + 1 + (Node.composite first atoms last).size)]) ++
          Node.memberSpansAll (start + 1 + (Node.composite first atoms last).size) members) := by
      by_cases hne : members = []
      · rw [hne]
        simp [Node.memberSpansAll, Node.CountMembers]
      · obtain ⟨next, more, hnext, hopens⟩ := hmembers.exists_first hne
        obtain ⟨hdimensions, hinside⟩ := drop_group hwhole
        rw [hnext, List.cons_append] at hdimensions
        obtain rfl := stop_eq_of_dimensions hatoms hopens hdimensions hfirst
          (hnone (hmembers.memberCount_pos hne))
        rw [List.isEmpty_eq_false_iff.mpr hne, Node.countMembers_append]
        refine ⟨fun span hspan other hother => ?_, ?_⟩
        · obtain rfl := List.mem_singleton.mp hspan
          rw [Except.ok.inj (hother.symm.trans hfirst)]
        · exact ihmembers hinside (.group (by simp) hboundary)
            (.inside hatoms hmembers hboundary hwhole htaken) hinner
    have hlaterCounts := ihrest hbehind htail (hstands.behind hparts hgroup (Nat.le_of_lt hforward) hstop
      htaken fun hmore => closeGroups_behind hrest hmore hgroup hwhole (Nat.le_of_lt hforward) htaken)
        hlater
    rw [Node.memberSpansAll, Node.memberSpans, List.cons_append, Node.countMembers_cons,
      Node.countMembers_append]
    refine ⟨fun other hother => ?_, hinnerCounts, hlaterCounts⟩
    rw [Except.ok.inj (hother.symm.trans hplace), htaken, ← Node.length_tokens, cut_of_drop hwhole]

end AreMembers

/-! ## What counts that take in all members say of plans -/

namespace Walk

variable {x : Walk Unit} {ends : List Token} {t : Token}

/-- Behind a walk that closes the block, ends of groups do nothing. -/
theorem Ends.bind_tokens (h : Ends x) (hends : CloseGroups ends) (ts : List Token) :
    (x >>= fun _ => tokens (ends ++ ts)) = x >>= fun _ => tokens ts := by
  induction ends with
  | nil => rfl
  | cons t rest ih =>
    rw [List.cons_append, tokens_closes (hends t (List.mem_cons_self ..)), ← bind_assoc, h.bind_close]
    exact ih fun u hu => hends u (List.mem_cons_of_mem _ hu)

theorem tokens_bind_close (hends : CloseGroups ends) : (tokens ends >>= fun _ => close) = close := by
  cases ends with
  | nil => rw [tokens, pure_bind]
  | cons t rest =>
    obtain ⟨ht, hrest⟩ := List.forall_mem_cons.mp hends
    rw [tokens_closes ht, ← List.append_nil rest, ends_close.bind_tokens hrest, bind_tokens_nil,
      ends_close.bind_close]

/-- Ends of groups before the end of the message do nothing but close the block. -/
theorem tokens_append_message (hends : CloseGroups ends) (ht : t.signal = .closes .message) :
    tokens (ends ++ [t]) = close >>= fun _ => push .decodeValidation := by
  have hlast : tokens [t] = close >>= fun _ => push .decodeValidation := by
    rw [tokens.eq_def]
    simp only [ht, bind_tokens_nil]
  cases ends with
  | nil => exact hlast
  | cons u rest =>
    obtain ⟨hu, hrest⟩ := List.forall_mem_cons.mp hends
    rw [List.cons_append, tokens_closes hu, ends_close.bind_tokens hrest, hlast, ← bind_assoc,
      ends_close.bind_close]

/-- Behind a group the block is closed. -/
theorem ends_group {opening closing : Entry} {dimensions : Node} {members : List Node} :
    Ends (x >>= fun _ => node (.span .group opening (dimensions :: members) closing)) := by
  intro w u h
  obtain ⟨_, v, -, hnode⟩ := bind_ok.mp h
  rw [node] at hnode
  obtain ⟨_, v₁, hclose, h₁⟩ := bind_ok.mp hnode
  obtain ⟨⟨blockLength, numInGroup⟩, _, hleading, h₂⟩ := bind_ok.mp h₁
  obtain ⟨rfl, -⟩ := leading_ok hleading
  obtain ⟨element, _, hinner, hpush⟩ := bind_ok.mp h₂
  obtain ⟨-, rfl⟩ := inner_ok hinner
  obtain rfl := push_ok.mp hpush
  exact (close_ok hclose).isClosed

theorem leading_take (cause : Inconsistency) {n : Nat} (hn : 3 ≤ n) (ts : List Token) :
    leading cause (ts.take n) = leading cause ts := by
  obtain ⟨n, rfl⟩ := Nat.exists_eq_add_of_le' hn
  match ts with
  | [] | [_] | [_, _] | _ :: _ :: _ :: _ => rfl

end Walk

namespace AreMembers

variable {all tail : List Token} {start stop : Nat}

theorem leadRight_of_single {construct : Construct} {opening closing : Entry} {parts : List Node}
    (hconstruct : construct = .field ∨ construct = .varData) (hplain : ∀ t ∈ tokensAll parts, t.IsPlain)
    (hstart : all.drop start = (Node.span construct opening parts closing).tokens ++ tail)
    (hboundary : Boundary tail)
    (hcount : Node.CountMembers all
      [(start, start + (Node.span construct opening parts closing).size)]) :
    Node.LeadRight all [(start, start + (Node.span construct opening parts closing).size)] := by
  intro span hspan stop hstop
  obtain rfl := List.mem_singleton.mp hspan
  refine stop_eq_of_single hconstruct hplain hstart hboundary hstop (Nat.le_of_eq ?_)
  rw [hcount _ hspan stop hstop, ← Node.length_tokens, cut_of_drop hstart,
    memberCount_single hconstruct hplain]

/-- The walk over a field or variable data. -/
theorem refines_single {construct : Construct} {opening closing : Entry} {parts : List Node}
    (hconstruct : construct = .field ∨ construct = .varData) (hplain : ∀ t ∈ tokensAll parts, t.IsPlain)
    (hcounts : ∀ t ∈ all, t.tokenCount.isSome)
    (hstart : all.drop start = (Node.span construct opening parts closing).tokens ++ tail)
    (hboundary : Boundary tail) (hright : Node.CountMembers all
      [(start, start + (Node.span construct opening parts closing).size)])
    (hlt : start < stop) {last : Token} (hlast : all[stop - 1]? = some last)
    (hcloses : last.signal = .closes .group ∨ last.signal = .closes .message) :
    Walk.Refines Fault.IsInconsistent (Walk.tokens (cut all start stop))
        (Walk.node (.span construct opening parts closing) >>= fun _ =>
          Walk.tokens (cut all (start + (Node.span construct opening parts closing).size) stop)) ∧
      start + (Node.span construct opening parts closing).size ≤ stop := by
  have hlead := leadRight_of_single hconstruct hplain hstart hboundary hright
  -- The last token of the range closes a group or the message, so it is behind the member.
  have hout : last ∉ (Node.span construct opening parts closing).tokens := by
    intro hmem
    rw [Node.tokens, List.mem_cons, List.mem_append, List.mem_singleton] at hmem
    rcases hmem with rfl | hmem | rfl
    · simp at hcloses
    · rcases hcloses with hcloses | hcloses
      · exact (hplain last hmem).signal_ne_closes (by decide) hcloses
      · exact (hplain last hmem).signal_ne_closes (by decide) hcloses
    · rcases hconstruct with rfl | rfl <;> simp at hcloses
  have hfits := length_le_of_not_mem hstart hlast (by omega) hout
  have hcut := cut_of_drop hstart
  have hsound (after : List Token)
      (h : Node.Passes Fault.IsInconsistent (.span construct opening parts closing) after) :
      (Node.span construct opening parts closing).Sound Fault.IsInconsistent after := by
    rcases hconstruct with rfl | rfl <;> exact h
  have hsome : (Node.span construct opening parts closing).tokens ≠ [] := by simp [Node.tokens]
  rw [Node.length_tokens] at hfits hcut
  generalize Node.span construct opening parts closing = n at *
  have hstop : start + n.size ≤ stop := by omega
  refine ⟨?_, hstop⟩
  have hslice : cut all start stop = n.tokens ++ cut all (start + n.size) stop := by
    rw [← hcut, cut_append (Nat.le_add_right ..) hstop, hcut]
  -- The counts lead past the tokens of the member, and what is behind them is left to the rest of the walk.
  have hpasses : n.Passes Fault.IsInconsistent (cut all (start + n.size) stop) := by
    have hsplit : all.drop start = n.tokens ++ cut all (start + n.size) stop ++ all.drop stop := by
      rw [← hslice, cut_append_drop (Nat.le_of_lt hlt)]
    exact Node.passes_of_leadRight hcounts hsome hsplit hlead
  rw [hslice]
  exact Walk.refines_node n _ (hsound _ hpasses)

/-- Tokens from a group up to the end of a group or a message go on beyond the dimensions. -/
theorem dimensions_lt {opening first final closing : Entry} {atoms members : List Node}
    (hatoms : ∀ t ∈ tokensAll atoms, t.IsAtom) (hstart : all.drop start =
      (Node.group opening (.composite first atoms final) members closing).tokens ++ tail)
    (hlt : start < stop) {last : Token} (hlast : all[stop - 1]? = some last)
    (hcloses : last.signal = .closes .group ∨ last.signal = .closes .message) :
    start + 1 + (Node.composite first atoms final).size < stop := by
  -- The last token is neither in the dimensions nor the one that opens the group, so it is behind both.
  have hout : last ∉ (Node.composite first atoms final).tokens := by
    intro hmem
    rw [Node.tokens, List.mem_cons, List.mem_append, List.mem_singleton] at hmem
    rcases hmem with rfl | hmem | rfl
    · simp at hcloses
    · rcases hcloses with hcloses | hcloses <;> exact (hatoms last hmem).signal_ne_closes hcloses
    · simp at hcloses
  have hfirst : start + [openToken .group opening (.composite first atoms final :: members)].length ≤
      stop - 1 := by
    refine length_le_of_not_mem (hstart.trans (Walk.tokens_span_append ..)) hlast (by omega)
      fun hmem => ?_
    rw [List.mem_singleton] at hmem
    rw [hmem] at hcloses
    simp at hcloses
  have hle := length_le_of_not_mem (drop_group hstart).1 hlast hfirst hout
  rw [Node.length_tokens] at hle
  omega

/-- The walk over a group, where the walks in it and behind it are known. -/
theorem refines_group {opening first final closing : Entry} {atoms members : List Node}
    (hatoms : ∀ t ∈ tokensAll atoms, t.IsAtom) (hcounts : ∀ t ∈ all, t.tokenCount.isSome)
    (hstart : all.drop start =
      (Node.group opening (.composite first atoms final) members closing).tokens ++ tail)
    (hlt : start < stop) {last : Token} (hlast : all[stop - 1]? = some last)
    (hcloses : last.signal = .closes .group ∨ last.signal = .closes .message) {x f g : Walk Unit}
    (hinside : ∀ place inside, endIndex all start = .ok place → endIndex all (start + 1) = .ok inside →
      Walk.Refines Fault.IsInconsistent (Walk.tokens (cut all inside place) >>= fun _ => Walk.close)
        (Walk.nodes members >>= fun _ => Walk.close))
    (hbehind : ∀ place, endIndex all start = .ok place → start < place → place ≤ stop →
      Walk.Refines Fault.IsInconsistent
        (x >>= fun _ => Walk.node (.group opening (.composite first atoms final) members closing) >>=
          fun _ => Walk.tokens (cut all place stop) >>= fun _ => f)
        (x >>= fun _ => Walk.node (.group opening (.composite first atoms final) members closing) >>=
          fun _ => g)) :
    Walk.Refines Fault.IsInconsistent (x >>= fun _ => Walk.tokens (cut all start stop) >>= fun _ => f)
      (x >>= fun _ => Walk.node (.group opening (.composite first atoms final) members closing) >>=
        fun _ => g) := by
  obtain ⟨hdimensions, -⟩ := drop_group hstart
  have hopening := hstart.trans (Walk.tokens_span_append ..)
  have hslice := cut_cons hopening hlt
  have hfits := dimensions_lt hatoms hstart hlt hlast hcloses
  have hleading (cause : Inconsistency) : Walk.leading cause (cut all (start + 1) stop) =
      Walk.leading cause (tokensAll (.composite first atoms final :: members) ++
        [closeToken .group closing]) := by
    rw [Node.size] at hfits
    rw [cut_eq_take, Walk.leading_take _ (by omega), hdimensions, ← List.append_assoc]
    exact Walk.leading_append cause .group closing (.composite first atoms final :: members) tail
  have hrefused {place : Nat} {fault : Fault} {token : Token} {rest back : List Token}
      (hplace : all.drop place = token :: back) (h : spanLength (token :: rest) = .error fault) :
      fault.IsInconsistent :=
    inconsistent_of_spanLength (hcounts _ (List.mem_of_mem_drop (hplace ▸ List.mem_cons_self ..))) h
  -- Both the count of the group and that of its dimensions may be refused.
  rw [hslice]
  cases hspan : spanLength (openToken .group opening (.composite first atoms final :: members) ::
      cut all (start + 1) stop) with
  | error fault =>
    exact .bind_left x fun _ => Walk.refines_group hleading
      (.inl ⟨fault, hspan, hrefused hopening hspan⟩)
  | ok span =>
    obtain ⟨hend, hstop⟩ := endIndex_of_cut hslice.symm hspan
    have hpositive := span.2.1
    have hdrop (n : Nat) : (openToken .group opening (.composite first atoms final :: members) ::
        cut all (start + 1) stop).drop n = cut all (start + n) stop := by
      rw [← hslice, drop_cut]
    have htake (n : Nat) (hn : start + n ≤ stop) : (openToken .group opening
        (.composite first atoms final :: members) :: cut all (start + 1) stop).take n =
          cut all start (start + n) := by
      rw [← hslice, take_cut hn]
    refine .trans ?_ (hbehind _ hend (by omega) hstop)
    refine .bind_left x fun _ => Walk.refines_group hleading (.inr ⟨span, hspan, ?_, fun _ => ?_⟩)
    · rw [hdrop]
      exact .refl _
    · cases hdims : spanLength (cut all (start + 1) stop) with
      | error fault =>
        have hcons := hdimensions.trans (Walk.tokens_span_append ..)
        rw [cut_cons hcons (by omega)] at hdims
        exact .inl ⟨fault, rfl, hrefused hcons hdims⟩
      | ok dimensions =>
        refine .inr ⟨dimensions, rfl, ?_⟩
        rw [htake _ hstop, drop_cut, ← Nat.add_assoc]
        exact hinside _ _ hend (endIndex_of_cut rfl hdims).1

/-- The walk in a group, where the walk over its members is known up to a last token that closes a
group. -/
theorem refines_inside {opening first final closing : Entry} {atoms members : List Node}
    {place inside : Nat} (hatoms : ∀ t ∈ tokensAll atoms, t.IsAtom) (hmembers : AreMembers members)
    (hboundary : Boundary tail)
    (hstart : all.drop start =
      (Node.group opening (.composite first atoms final) members closing).tokens ++ tail)
    (hplace : endIndex all start = .ok place) (hinside : endIndex all (start + 1) = .ok inside)
    (htaken : memberCount (cut all start place) =
      memberCount (Node.group opening (.composite first atoms final) members closing).tokens)
    (hdimensions : Node.CountMembers all
      (if members.isEmpty then [] else [(start + 1, start + 1 + (Node.composite first atoms final).size)]))
    (hwalk : ∀ t, all[place - 1]? = some t → t.signal = .closes .group →
      (∀ cursor, Boundary (all.drop cursor) → memberCount (cut all cursor place) = 0 →
        Walk.Refines Fault.IsInconsistent
          (Walk.tokens (cut all cursor place) >>= fun _ => Walk.close) Walk.close) →
      Walk.Refines Fault.IsInconsistent
        (Walk.tokens (cut all (start + 1 + (Node.composite first atoms final).size) place) >>=
          fun _ => Walk.close)
        (Walk.nodes members >>= fun _ => Walk.close)) :
    Walk.Refines Fault.IsInconsistent (Walk.tokens (cut all inside place) >>= fun _ => Walk.close)
      (Walk.nodes members >>= fun _ => Walk.close) := by
  obtain ⟨t, ht, hcloses, -, hlength⟩ :=
    last_of_endIndex (hstart.trans (Walk.tokens_span_append ..)) (Node.signal_openToken ..) hplace
  have hstands := Stands.inside hatoms hmembers hboundary hstart htaken
  have hdimensionsTokens := (drop_group hstart).1
  by_cases hne : members = []
  · -- Behind the dimensions, nothing but groups is closed.
    subst hne
    have hends := closeGroups_cut hstands.boundary hlength ht hcloses hstands.count
    have hle : start + 1 + (Node.composite first atoms final).size ≤ inside :=
      size_le_of_endIndex (fun t ht => (hatoms t ht).signal_ne_closes) hdimensionsTokens hinside
    have hfewer : CloseGroups (cut all inside place) := by
      rw [← Nat.add_sub_cancel' hle, ← drop_cut]
      exact fun t ht => hends t (List.mem_of_mem_drop ht)
    rw [Walk.tokens_bind_close hfewer, Walk.nodes, pure_bind]
    exact .refl _
  · -- The count of the dimensions takes in no member, so it leads to where the members begin.
    obtain ⟨next, more, hnext, hopens⟩ := hmembers.exists_first hne
    have hnone : memberCount (cut all (start + 1) inside) = 0 := by
      rw [List.isEmpty_eq_false_iff.mpr hne] at hdimensions
      rw [hdimensions _ (List.mem_singleton.mpr rfl) _ hinside, ← Node.length_tokens,
        cut_of_drop hdimensionsTokens]
      exact memberCount_dimensions hatoms
    rw [hnext, List.cons_append] at hdimensionsTokens
    obtain rfl := stop_eq_of_dimensions hatoms hopens hdimensionsTokens hinside hnone
    refine hwalk t ht hcloses fun cursor hcursor hnothing => ?_
    rw [Walk.tokens_bind_close (closeGroups_cut hcursor hlength ht hcloses hnothing)]
    exact .refl _

/-- Ends of groups before members do nothing to a walk. -/
theorem bind_tokens {parts : List Node} {cursor : Nat} (h : AreMembers parts) (hne : parts ≠ [])
    (hstands : Stands all parts start cursor stop) {x : Walk Unit} (hx : cursor = start ∨ Walk.Ends x)
    (f : Walk Unit) :
    (x >>= fun _ => Walk.tokens (cut all cursor stop) >>= fun _ => f) =
      x >>= fun _ => Walk.tokens (cut all start stop) >>= fun _ => f := by
  obtain ⟨-, hsplit, -⟩ := hstands.split h hne
  rcases hx with rfl | hx
  · rfl
  · rw [hsplit, ← bind_assoc, hx.bind_tokens (hstands.ends hne).2, bind_assoc]

/-- **Counts tell of plans.** If all counts take in as many members as there are, a walk over tokens does
for members what the walk over these does, unless a count is refused. -/
theorem refines_of_countMembers {parts : List Node} (h : AreMembers parts)
    (hcounts : ∀ t ∈ all, t.tokenCount.isSome)
    (hgroups : ∀ place t, all[place]? = some t → t.signal = .closes .group →
      Boundary (all.drop (place + 1)))
    {start cursor stop : Nat} {tail : List Token} (hstart : all.drop start = tokensAll parts ++ tail)
    (htail : Boundary tail) (hstands : Stands all parts start cursor stop)
    (hright : Node.CountMembers all (Node.memberSpansAll start parts)) {last : Token}
    (hlast : all[stop - 1]? = some last)
    (hcloses : last.signal = .closes .group ∨ last.signal = .closes .message) {x f k : Walk Unit}
    (hx : cursor = start ∨ Walk.Ends x)
    (hbase : ∀ place, Boundary (all.drop place) → memberCount (cut all place stop) = 0 →
      Walk.Refines Fault.IsInconsistent (Walk.tokens (cut all place stop) >>= fun _ => f) k) :
    Walk.Refines Fault.IsInconsistent (x >>= fun _ => Walk.tokens (cut all cursor stop) >>= fun _ => f)
      (x >>= fun _ => Walk.nodes parts >>= fun _ => k) := by
  -- On the shape of the members. `x` is the walk in front of them, which each of them joins in its turn.
  induction h generalizing start cursor stop tail last x f k with
  | nil =>
    rw [Walk.nodes, pure_bind]
    exact .bind_left x fun _ => hbase cursor hstands.boundary hstands.count
  | @single construct opening closing parts rest hconstruct hplain hrest ih =>
    have hparts : AreMembers (.span construct opening parts closing :: rest) :=
      .single hconstruct hplain hrest
    obtain ⟨hwhole, hbehind⟩ := drop_first hstart
    have hboundary : Boundary (tokensAll rest ++ tail) := hrest.boundary htail
    obtain ⟨hlt, -, -⟩ := hstands.split hparts (by simp)
    rw [Node.memberSpansAll, Node.memberSpans_single hconstruct, Node.countMembers_append] at hright
    obtain ⟨hnode, hstop⟩ := refines_single hconstruct hplain hcounts hwhole hboundary hright.1 hlt hlast
      hcloses
    have hlater := ih hbehind htail (hstands.behind hparts (hbehind ▸ hboundary) (Nat.le_add_right ..) hstop
      (by rw [← Node.length_tokens, cut_of_drop hwhole])
      fun _ => ⟨Nat.le_refl _, by rw [cut_of_le (Nat.le_refl _)]; simp [CloseGroups]⟩) hright.2 hlast hcloses
      (.inl rfl) hbase (x := x >>= fun _ => Walk.node (.span construct opening parts closing))
    rw [bind_tokens hparts (by simp) hstands hx]
    refine (Walk.Refines.bind_left x fun _ => hnode.bind fun _ => .refl f).trans ?_
    simpa only [Walk.nodes, bind_assoc] using hlater
  | @group opening first final closing atoms members rest hatoms hmembers hrest ihmembers ihrest =>
    have hparts : AreMembers (.group opening (.composite first atoms final) members closing :: rest) :=
      .group hatoms hmembers hrest
    obtain ⟨hwhole, hbehind⟩ := drop_first hstart
    have hboundary : Boundary (tokensAll rest ++ tail) := hrest.boundary htail
    obtain ⟨hlt, -, -⟩ := hstands.split hparts (by simp)
    rw [Node.memberSpansAll, Node.memberSpans, Node.countMembers_append, Node.countMembers_cons,
      Node.countMembers_append] at hright
    obtain ⟨⟨hgroup, hdimensions, hinner⟩, hlater⟩ := hright
    have htaken {place : Nat} (hplace : endIndex all start = .ok place) :
        memberCount (cut all start place) =
          memberCount (Node.group opening (.composite first atoms final) members closing).tokens := by
      rw [hgroup place hplace, ← Node.length_tokens, cut_of_drop hwhole]
    rw [bind_tokens hparts (by simp) hstands hx]
    simp only [Walk.nodes, bind_assoc]
    refine refines_group hatoms hcounts hwhole hlt hlast hcloses ?_ ?_
    · intro place inside hplace hinside
      refine refines_inside hatoms hmembers hboundary hwhole hplace hinside (htaken hplace) hdimensions
        fun t ht hgroupCloses hclosed => ?_
      -- In the group the walk is a new one, and what is left at its end closes the group.
      have hmembersWalk := ihmembers (drop_group hwhole).2 (.group (by simp) hboundary)
        (.inside hatoms hmembers hboundary hwhole (htaken hplace)) hinner ht (.inl hgroupCloses) (.inl rfl)
        hclosed (x := pure ())
      simpa only [pure_bind] using hmembersWalk
    · intro place hplace hforward hstop
      have hplaceBoundary := boundary_of_endIndex hgroups hwhole hplace
      have hlaterWalk := ihrest hbehind htail (hstands.behind hparts hplaceBoundary (Nat.le_of_lt hforward)
        hstop (htaken hplace) fun hmore => closeGroups_behind hrest hmore hplaceBoundary hwhole
          (Nat.le_of_lt hforward) (htaken hplace)) hlater hlast hcloses (.inr Walk.ends_group) hbase
            (x := x >>= fun _ =>
              Walk.node (.group opening (.composite first atoms final) members closing))
      simpa only [bind_assoc] using hlaterWalk

end AreMembers

/-! ## Messages -/

namespace AreMembers

variable {opening closing : Entry} {parts : List Node}

theorem drop_message : (Node.span .message opening parts closing).tokens.drop 1 =
    tokensAll parts ++ [closeToken .message closing] :=
  rfl

theorem cut_message (place : Nat) : cut (Node.span .message opening parts closing).tokens place
    (Node.span .message opening parts closing).tokens.length =
      (Node.span .message opening parts closing).tokens.drop place := by
  rw [cut, List.take_length]

theorem stands_message (h : AreMembers parts) :
    Stands (Node.span .message opening parts closing).tokens parts 1 1
      (Node.span .message opening parts closing).tokens.length := by
  refine .of_start h drop_message (.message rfl) ?_
  rw [cut_message, drop_message, memberCount_append]
  simp [memberCount, Token.opensMember]

/-- If all counts of a message take in as many members as there are, the walk over its tokens is the one
over the tree, unless a count is refused. -/
theorem refines_message (h : AreMembers parts)
    (hcounts : ∀ t ∈ (Node.span .message opening parts closing).tokens, t.tokenCount.isSome)
    (hright : Node.CountMembers (Node.span .message opening parts closing).tokens
      (Node.memberSpansAll 1 parts)) :
    Walk.Refines Fault.IsInconsistent (Walk.tokens (Node.span .message opening parts closing).tokens)
      (Walk.node (.span .message opening parts closing)) := by
  have hlast : (Node.span .message opening parts closing).tokens[
      (Node.span .message opening parts closing).tokens.length - 1]? =
        some (closeToken .message closing) := by
    rw [← List.getLast?_eq_getElem?, Node.tokens, ← List.cons_append, List.getLast?_concat]
  -- Behind the last member there are only ends of groups, which close a block once, and that of the message.
  have hclosed (place : Nat) (hplace : Boundary ((Node.span .message opening parts closing).tokens.drop place))
      (hnone : memberCount (cut (Node.span .message opening parts closing).tokens place
        (Node.span .message opening parts closing).tokens.length) = 0) :
      Walk.Refines Fault.IsInconsistent
        (Walk.tokens (cut (Node.span .message opening parts closing).tokens place
          (Node.span .message opening parts closing).tokens.length) >>= fun _ => pure ())
        (Walk.close >>= fun _ => Walk.push .decodeValidation) := by
    rw [cut_message] at hnone ⊢
    obtain ⟨ends, t, heq, hends, ht⟩ := hplace.eq_append hnone
    rw [heq, Walk.tokens_append_message hends ht, bind_pure_unit]
    exact .refl _
  have hwalk := h.refines_of_countMembers hcounts
    (fun place t hplace ht => h.boundary_of_message hplace ht) drop_message (.message rfl)
    h.stands_message hright hlast (.inr (by simp)) (.inl rfl) hclosed
    (x := Walk.push .encodeValidation)
  rw [cut_message, drop_message] at hwalk
  rw [Node.tokens, Walk.tokens.eq_def, Walk.node]
  simpa only [Node.signal_openToken, bind_pure_unit] using hwalk

/-- If a plan is the one of the tree, the counts of the message take in as many members as there are. -/
theorem countMembers_of_plans (h : AreMembers parts) {blank p q : Plan} (hblank : blank.steps = [])
    (hp : Walk.fresh blank (Walk.tokens (Node.span .message opening parts closing).tokens) = .ok p)
    (hq : Walk.fresh blank (Walk.node (.span .message opening parts closing)) = .ok q)
    (hsame : p.uncounted = q.uncounted) :
    Node.CountMembers (Node.span .message opening parts closing).tokens (Node.memberSpansAll 1 parts) := by
  obtain ⟨u, hwalk, hchildren⟩ := Walk.fresh_leaves hblank hp
  obtain ⟨z, hforest, hothers⟩ := Walk.fresh_leaves hblank hq
  -- The walk over the tokens, behind the first one.
  rw [Node.tokens, Walk.tokens.eq_def] at hwalk
  simp only [Node.signal_openToken] at hwalk
  obtain ⟨_, w₁, hpush, hrest⟩ := Walk.bind_ok.mp hwalk
  obtain rfl := Walk.push_ok.mp hpush
  obtain ⟨steps, hsteps, -⟩ := Walk.tally_le hrest
  -- The walk over the tree.
  rw [Walk.node] at hforest
  obtain ⟨_, w₂, hpush, h₁⟩ := Walk.bind_ok.mp hforest
  obtain rfl := Walk.push_ok.mp hpush
  obtain ⟨_, v, hnodes, h₂⟩ := Walk.bind_ok.mp h₁
  obtain ⟨_, v', hclose, hpush⟩ := Walk.bind_ok.mp h₂
  obtain rfl := Walk.push_ok.mp hpush
  obtain ⟨others, hleft, -⟩ := h.tally_eq hnodes
  have hmine := hchildren ((Walker.leaves_extend ..).trans hsteps)
  have hother := hothers ((Walker.leaves_extend ..).trans (hleft.trans
    ((Walk.close_ok hclose).leaves.trans (Walker.leaves_extend ..))))
  have hleave : LeaveSame (tokensAll parts ++ [closeToken .message closing]) parts := by
    refine ⟨_, _, _, _, steps, others, hrest, hsteps, hnodes, hleft, ?_⟩
    have hchildrenSame := Plan.uncountedAll_children hsame
    rw [hmine, hother] at hchildrenSame
    simpa [Step.isChild] using hchildrenSame
  rw [← @drop_message opening, ← cut_message] at hleave
  exact h.countMembers_of_same (fun place t hplace ht => h.boundary_of_message hplace ht) drop_message
    (.message rfl) h.stands_message hleave

end AreMembers

namespace Plan

/-- Whether a plan is refused as inconsistent, or is the same as another apart from counts. -/
def RefusedOrSame (x y : Except Fault Plan) : Prop :=
  (∃ cause, x = .error (.inconsistent cause)) ∨
    ∃ p q, x = .ok p ∧ y = .ok q ∧ p.uncounted = q.uncounted

section

variable (typeName : String) {opening closing : Entry} {parts : List Node}

/-- A walk over the tokens of a message that does what the one over the tree does makes the plan that the
message has without counts. -/
theorem refusedOrSame_of_refines
    (hnumbered : ∀ t ∈ (Node.span .message opening parts closing).tokens, t.Numbered)
    (hrefines : Walk.Refines Fault.IsInconsistent
      (Walk.tokens (Node.span .message opening parts closing).tokens)
      (Walk.node (.span .message opening parts closing))) :
    RefusedOrSame (ofMessage typeName (Node.span .message opening parts closing).tokens)
      (ofMessage typeName (Node.span .message opening parts closing).uncounted.tokens) := by
  rw [ofMessage_node]
  rcases hrefines.fresh (blankMessage typeName (openToken .message opening parts)) with
    heq | ⟨fault, herror, cause, rfl⟩
  · rw [heq]
    rcases samePlan_uncounted typeName hnumbered with hplans | ⟨cause, hcause, -⟩
    · exact .inr hplans
    · exact .inl ⟨cause, hcause⟩
  · exact .inl ⟨cause, herror⟩

/-- Counts that lead right do not change the plan. -/
theorem refusedOrSame_of_leadRight
    (hnumbered : ∀ t ∈ (Node.span .message opening parts closing).tokens, t.Numbered)
    (hright : Node.LeadRight (Node.span .message opening parts closing).tokens
      ((Node.span .message opening parts closing).spans 0)) :
    RefusedOrSame (ofMessage typeName (Node.span .message opening parts closing).tokens)
      (ofMessage typeName (Node.span .message opening parts closing).uncounted.tokens) := by
  have hall : (Node.span .message opening parts closing).tokens.drop 0 =
      (Node.span .message opening parts closing).tokens ++ [] ++ [] := by simp
  have hsound := Node.sound_of_leadRight (fun t ht => (hnumbered t ht).tokenCount) _ hall hright
  have hnode := Walk.refines_node _ [] hsound
  rw [List.append_nil, Walk.bind_tokens_nil] at hnode
  exact refusedOrSame_of_refines typeName hnumbered hnode

/-- In a message of members, these are the counts that do not change the plan. -/
theorem refusedOrSame_iff (hparts : AreMembers parts)
    (hnumbered : ∀ t ∈ (Node.span .message opening parts closing).tokens, t.Numbered) :
    RefusedOrSame (ofMessage typeName (Node.span .message opening parts closing).tokens)
        (ofMessage typeName (Node.span .message opening parts closing).uncounted.tokens) ↔
      (∃ cause, ofMessage typeName (Node.span .message opening parts closing).tokens =
          .error (.inconsistent cause)) ∨
        Node.CountMembers (Node.span .message opening parts closing).tokens
          (Node.memberSpansAll 1 parts) := by
  constructor
  · rintro (hrefused | ⟨p, q, hp, hq, hsame⟩)
    · exact .inl hrefused
    · rcases samePlan_uncounted typeName hnumbered with ⟨r, q', hr, hq', hplans⟩ | ⟨cause, -, herror⟩
      · obtain rfl := Except.ok.inj (hq.symm.trans hq')
        exact .inr (hparts.countMembers_of_plans rfl hp hr (hsame.trans hplans.symm))
      · rw [hq] at herror
        cases herror
  · rintro (hrefused | hcounts)
    · exact .inl hrefused
    · exact refusedOrSame_of_refines typeName hnumbered
        (hparts.refines_message (fun t ht => (hnumbered t ht).tokenCount) hcounts)

end

/-- **What counts do to a plan.** Whatever counts a message gives, it is refused as inconsistent, or has the
plan that it has with all counts left out of the document, if its counts lead where the brackets lead,
wherever the walk takes them. If it is made of members, it is refused or has that plan exactly if it is
refused or its counts take in as many members as there are. -/
theorem ofMessage_uncounted {typeName : String} {items : List Datum} {opening closing : Entry}
    {parts : List Node} {ts : List Token} (hread : Token.listOfDatum (.list items) = .ok ts)
    (hmessage : Entry.listOf 0 (Datum.leaves items) =
      .ok (Node.span .message opening parts closing).entries)
    (hnumbered : ∀ t ∈ ts, t.Numbered) :
    ∃ us, Token.listOfDatum (.list (Datum.withoutCounts items)) = .ok us ∧
      (Node.LeadRight ts ((Node.span .message opening parts closing).spans 0) →
        RefusedOrSame (ofMessage typeName ts) (ofMessage typeName us)) ∧
      (AreMembers parts →
        (RefusedOrSame (ofMessage typeName ts) (ofMessage typeName us) ↔
          (∃ cause, ofMessage typeName ts = .error (.inconsistent cause)) ∨
            Node.CountMembers ts (Node.memberSpansAll 1 parts))) := by
  obtain rfl : ts = (Node.span .message opening parts closing).tokens :=
    Except.ok.inj (hread.symm.trans (Token.listOfDatum_node hmessage))
  refine ⟨(Node.span .message opening parts closing).uncounted.tokens, ?_,
    refusedOrSame_of_leadRight typeName hnumbered, fun hparts => refusedOrSame_iff typeName hparts hnumbered⟩
  refine Token.listOfDatum_node ?_
  rw [Node.entries_uncounted]
  exact Entry.listOf_withoutCounts hmessage

end Plan

/-! ## A count that goes astray -/

/-- The items of a field of one byte. -/
def byteItems (name : String) (count : Option Int) : List Datum :=
  [.item (.opens .field) name count none none,
    .item .encoding "uint8" none (some 1) (some .uint8),
    .item (.closes .field) name none none none]

/-- The items of a message of two bytes, where the first field gives a count. -/
def twoByteItems (count : Int) : List Datum :=
  [.item (.opens .message) "M" none (some 2) none] ++ byteItems "a" (some count) ++
    byteItems "b" none ++ [.item (.closes .message) "M" none none none]

/-- A field of one byte. -/
def byteField (name : String) (count : Option Int) : Node :=
  .span .field
    ⟨{ signal := .opens .field, name, tokenCount := some (count.getD 1) }, count.isSome⟩
    [.leaf .encoding ⟨{ signal := .encoding, name := "uint8", encodedLength := some 1,
                        encoding := { primitive := some .uint8 } }, false⟩]
    ⟨{ signal := .closes .field, name }, false⟩

/-- A message of two bytes, where the first field gives a count. -/
def twoByteMessage (count : Int) : Node :=
  .span .message ⟨{ signal := .opens .message, name := "M", encodedLength := some 2 }, false⟩
    [byteField "a" (some count), byteField "b" none]
    ⟨{ signal := .closes .message, name := "M" }, false⟩

theorem twoByteItems_entries (count : Int) :
    Entry.listOf 0 (Datum.leaves (twoByteItems count)) = .ok (twoByteMessage count).entries := by
  have hleaves : Datum.leaves (twoByteItems count) = (twoByteItems count).map some := rfl
  rw [hleaves]
  simp only [twoByteItems, byteItems, List.cons_append, List.nil_append, List.map_cons, List.map_nil,
    Entry.listOf, Entry.ofDatum_item]
  rfl

theorem twoByteMessage_numbered (count : Int) : ∀ t ∈ (twoByteMessage count).tokens, t.Numbered := by
  intro t ht
  simp only [twoByteMessage, byteField, Node.tokens, tokensAll, List.cons_append,
    List.nil_append, List.append_nil, List.mem_cons, List.not_mem_nil, or_false] at ht
  rcases ht with rfl | rfl | rfl | rfl | rfl | rfl | rfl | rfl <;> exact ⟨rfl, rfl, rfl, rfl, rfl, rfl⟩

/-- With a count that leads right, the plan is the one without counts, and the counts take in as many members
as there are. -/
theorem twoByteMessage_three :
    Token.listOfDatum (.list (twoByteItems 3)) = .ok (twoByteMessage 3).tokens ∧
      Entry.listOf 0 (Datum.leaves (twoByteItems 3)) = .ok (twoByteMessage 3).entries ∧
      (∀ t ∈ (twoByteMessage 3).tokens, t.Numbered) ∧
      Node.LeadRight (twoByteMessage 3).tokens ((twoByteMessage 3).spans 0) ∧
      AreMembers [byteField "a" (some 3), byteField "b" none] ∧
      ∃ us, Token.listOfDatum (.list (Datum.withoutCounts (twoByteItems 3))) = .ok us ∧
        Plan.RefusedOrSame (Plan.ofMessage "M" (twoByteMessage 3).tokens) (Plan.ofMessage "M" us) ∧
        ((∃ cause, Plan.ofMessage "M" (twoByteMessage 3).tokens = .error (.inconsistent cause)) ∨
          Node.CountMembers (twoByteMessage 3).tokens
            (Node.memberSpansAll 1 [byteField "a" (some 3), byteField "b" none])) := by
  have hmessage := twoByteItems_entries 3
  have hread := Token.listOfDatum_node hmessage
  have hright : Node.LeadRight (twoByteMessage 3).tokens ((twoByteMessage 3).spans 0) := by
    have hspans : (twoByteMessage 3).spans 0 = [(1, 4), (4, 7)] := by cbv
    have ha : endIndex (twoByteMessage 3).tokens 1 = .ok 4 := by cbv
    have hb : endIndex (twoByteMessage 3).tokens 4 = .ok 7 := by cbv
    rw [hspans, Node.leadRight_cons]
    constructor
    · rintro _ hspan stop hstop
      obtain rfl := List.mem_singleton.mp hspan
      exact Except.ok.inj (hstop.symm.trans ha)
    · rintro _ hspan stop hstop
      obtain rfl := List.mem_singleton.mp hspan
      exact Except.ok.inj (hstop.symm.trans hb)
  have hparts : AreMembers [byteField "a" (some 3), byteField "b" none] := by
    refine .single (.inl rfl) ?_ (.single (.inl rfl) ?_ .nil)
    all_goals simp [tokensAll, Node.tokens, Token.IsPlain, Atom.signal]
  obtain ⟨us, hus, hsame, hiff⟩ :=
    @Plan.ofMessage_uncounted "M" _ _ _ _ _ hread hmessage (twoByteMessage_numbered 3)
  exact ⟨hread, hmessage, twoByteMessage_numbered 3, hright, hparts, us, hus, hsame hright,
    (hiff hparts).mp (hsame hright)⟩

/-- A count of six for the first field leads to the end of the second one, which is lost. -/
theorem twoByteMessage_six :
    Token.listOfDatum (.list (twoByteItems 6)) = .ok (twoByteMessage 6).tokens ∧
      Token.listOfDatum (.list (Datum.withoutCounts (twoByteItems 6))) =
        .ok (twoByteMessage 6).uncounted.tokens ∧
      (∀ t ∈ (twoByteMessage 6).tokens, t.Numbered) ∧
      ∃ p q, Plan.ofMessage "M" (twoByteMessage 6).tokens = .ok p ∧
        Plan.ofMessage "M" (twoByteMessage 6).uncounted.tokens = .ok q ∧
        p.uncounted ≠ q.uncounted := by
  have hmessage := twoByteItems_entries 6
  refine ⟨Token.listOfDatum_node hmessage, ?_, twoByteMessage_numbered 6, ?_⟩
  · refine Token.listOfDatum_node ?_
    rw [Node.entries_uncounted]
    exact Entry.listOf_withoutCounts hmessage
  · -- The plans differ in what they consume.
    have hp : (Plan.ofMessage "M" (twoByteMessage 6).tokens).map Plan.consumed = .ok 1 := by cbv
    have hq : (Plan.ofMessage "M" (twoByteMessage 6).uncounted.tokens).map Plan.consumed = .ok 2 := by
      cbv
    cases hmine : Plan.ofMessage "M" (twoByteMessage 6).tokens with
    | error => rw [hmine] at hp; cases hp
    | ok p =>
      cases hother : Plan.ofMessage "M" (twoByteMessage 6).uncounted.tokens with
      | error => rw [hother] at hq; cases hq
      | ok q =>
        rw [hmine] at hp
        rw [hother] at hq
        refine ⟨p, q, rfl, rfl, fun hsame => ?_⟩
        obtain ⟨-, -, -, -, -, -, hconsumed⟩ := Plan.uncounted_eq_iff.mp hsame
        have h₁ : p.consumed = 1 := Except.ok.inj hp
        have h₂ : q.consumed = 2 := Except.ok.inj hq
        omega

end SimpleBinary
