import SimpleBinary.Proofs.Forest.Count

/-!
Members of a message.

A message of a schema has fields, groups and variable data for members, and a group has the same behind
its dimensions (`AreMembers`). Such a list of tokens is marked out by the tokens that open members: at a
place where members begin or end, nothing but ends of groups can stand before the next one (`Boundary`).
So where a count leads can be told from the number of members that it takes in: for a field, variable
data or dimensions that number is right only at the end of the construct itself, and for a group only
there or some ends of groups before or behind it.
-/

set_option autoImplicit false

namespace SimpleBinary

open Node (openToken closeToken tokensAll sizeAll)

/-! ## Parts of a list -/

/-- The tokens from one place up to another. -/
def cut (ts : List Token) (start stop : Nat) : List Token :=
  (ts.take stop).drop start

section

variable {ts front back : List Token} {start middle stop : Nat}

theorem cut_eq_take (ts : List Token) (start stop : Nat) :
    cut ts start stop = (ts.drop start).take (stop - start) :=
  List.drop_take ..

theorem cut_append (hstart : start ≤ middle) (hstop : middle ≤ stop) :
    cut ts start stop = cut ts start middle ++ cut ts middle stop := by
  have hmiddle : start + (middle - start) = middle := by omega
  have hlength : stop - start - (middle - start) = stop - middle := by omega
  rw [cut_eq_take, cut_eq_take, cut_eq_take, ← List.take_append_drop (middle - start) ((ts.drop start).take _),
    List.take_take, List.drop_take, List.drop_drop, hmiddle, hlength, Nat.min_eq_left (by omega)]

theorem cut_of_le (h : stop ≤ start) : cut ts start stop = [] := by
  rw [cut_eq_take, Nat.sub_eq_zero_of_le h, List.take_zero]

theorem cut_of_drop (h : ts.drop start = front ++ back) :
    cut ts start (start + front.length) = front := by
  rw [cut_eq_take, h, Nat.add_sub_cancel_left, List.take_left]

theorem drop_cut (ts : List Token) (start stop n : Nat) :
    (cut ts start stop).drop n = cut ts (start + n) stop := by
  rw [cut, List.drop_drop, cut]

theorem take_cut {n : Nat} (h : start + n ≤ stop) :
    (cut ts start stop).take n = cut ts start (start + n) := by
  rw [cut_eq_take, cut_eq_take, List.take_take, Nat.add_sub_cancel_left, Nat.min_eq_left (by omega)]

theorem cut_append_drop (h : start ≤ stop) : cut ts start stop ++ ts.drop stop = ts.drop start := by
  have hstop : stop = start + (stop - start) := by omega
  rw [cut_eq_take]
  nth_rewrite 2 [hstop]
  rw [← List.drop_drop, List.take_append_drop]

theorem cut_cons {token : Token} {rest : List Token} (hstart : ts.drop start = token :: rest)
    (hlt : start < stop) : cut ts start stop = token :: cut ts (start + 1) stop := by
  have hfirst : cut ts start (start + [token].length) = [token] := cut_of_drop hstart
  rw [List.length_singleton] at hfirst
  rw [cut_append (Nat.le_succ start) hlt, Nat.succ_eq_add_one, hfirst, List.singleton_append]

/-- A span in a part of a list is one in the list. -/
theorem endIndex_of_cut {part : List Token} {span : SpanLength part} (hpart : part = cut ts start stop)
    (h : spanLength part = .ok span) :
    endIndex ts start = .ok (start + span.1) ∧ start + span.1 ≤ stop := by
  subst hpart
  have hlength : (cut ts start stop).length ≤ stop - start := by
    rw [cut_eq_take, List.length_take]
    omega
  have hlong : span.1 ≤ stop - start := Nat.le_trans span.2.2 hlength
  obtain ⟨whole, hwhole, heq⟩ := spanLength_append ((ts.drop start).drop (stop - start)) h
  have hpositive := span.2.1
  refine ⟨?_, by omega⟩
  have hsplit : ts.drop start = cut ts start stop ++ (ts.drop start).drop (stop - start) := by
    rw [cut_eq_take, List.take_append_drop]
  rw [endIndex, hsplit, hwhole, ← heq]
  rfl

end

/-! ## Members -/

/-- Whether a token opens a member of a message or of a group. -/
def Token.opensMember (t : Token) : Bool :=
  match t.signal with
  | .opens .field | .opens .group | .opens .varData => true
  | _ => false

/-- The number of members that tokens open. -/
def memberCount (ts : List Token) : Nat :=
  ts.countP Token.opensMember

@[simp] theorem memberCount_append (a b : List Token) :
    memberCount (a ++ b) = memberCount a + memberCount b :=
  List.countP_append

/-- Less of a list does not open more members. -/
theorem memberCount_cut_le (ts : List Token) (start : Nat) {stop further : Nat} (h : stop ≤ further) :
    memberCount (cut ts start stop) ≤ memberCount (cut ts start further) := by
  have hprefix : (cut ts start stop).Sublist (cut ts start further) := by
    rw [cut_eq_take, cut_eq_take]
    exact List.take_sublist_take_left (by omega)
  exact hprefix.countP_le

/-- Whether a token has to do with types only: an atom, or what opens or closes an enumeration, a set or
a composite. -/
def Token.IsPlain (t : Token) : Prop :=
  match t.signal with
  | .opens construct | .closes construct =>
    construct = .enumeration ∨ construct = .choiceSet ∨ construct = .composite
  | _ => True

/-- Whether a token neither opens nor closes anything. -/
def Token.IsAtom (t : Token) : Prop :=
  match t.signal with
  | .opens _ | .closes _ => False
  | _ => True

namespace Node

/-- A composite. -/
abbrev composite (opening : Entry) (parts : List Node) (closing : Entry) : Node :=
  .span .composite opening parts closing

/-- A group with its dimensions and its members. -/
abbrev group (opening : Entry) (dimensions : Node) (members : List Node) (closing : Entry) : Node :=
  .span .group opening (dimensions :: members) closing

end Node

/-- Members of a message or of a group: fields and variable data with types inside, and groups with a
composite of atoms for dimensions and members of their own. -/
inductive AreMembers : List Node → Prop
  | nil : AreMembers []
  | single {construct : Construct} {opening closing : Entry} {parts rest : List Node} :
      construct = .field ∨ construct = .varData → (∀ t ∈ tokensAll parts, t.IsPlain) →
      AreMembers rest → AreMembers (.span construct opening parts closing :: rest)
  | group {opening first last closing : Entry} {atoms members rest : List Node} :
      (∀ t ∈ tokensAll atoms, t.IsAtom) → AreMembers members → AreMembers rest →
      AreMembers (.group opening (.composite first atoms last) members closing :: rest)

section

variable {t : Token}

theorem Token.IsPlain.opensMember_eq (h : t.IsPlain) : t.opensMember = false := by
  unfold IsPlain at h
  unfold opensMember
  cases hs : t.signal with
  | opens construct => cases construct <;> simp_all
  | _ => rfl

theorem Token.IsPlain.signal_ne_closes (h : t.IsPlain) {construct : Construct}
    (hconstruct : construct ≠ .enumeration ∧ construct ≠ .choiceSet ∧ construct ≠ .composite) :
    t.signal ≠ .closes construct := by
  intro hs
  rw [IsPlain, hs] at h
  rcases h with h | h | h
  · exact hconstruct.1 h
  · exact hconstruct.2.1 h
  · exact hconstruct.2.2 h

theorem Token.IsAtom.isPlain (h : t.IsAtom) : t.IsPlain := by
  unfold IsAtom at h
  unfold IsPlain
  split <;> simp_all

theorem Token.IsAtom.signal_ne_closes (h : t.IsAtom) {construct : Construct} :
    t.signal ≠ .closes construct := by
  intro hs
  rw [IsAtom, hs] at h
  exact h

theorem memberCount_of_plain {ts : List Token} (h : ∀ t ∈ ts, t.IsPlain) : memberCount ts = 0 :=
  List.countP_eq_zero.mpr fun t ht => by simp [(h t ht).opensMember_eq]

end

namespace AreMembers

variable {parts : List Node}

theorem memberCount_single {construct : Construct} {opening closing : Entry} {parts : List Node}
    (hconstruct : construct = .field ∨ construct = .varData)
    (hplain : ∀ t ∈ tokensAll parts, t.IsPlain) :
    memberCount (Node.span construct opening parts closing).tokens = 1 := by
  rw [Node.tokens, memberCount, List.countP_cons, List.countP_append, ← memberCount, ← memberCount,
    memberCount_of_plain hplain]
  rcases hconstruct with rfl | rfl <;> simp [memberCount, Token.opensMember]

theorem memberCount_dimensions {opening closing : Entry} {atoms : List Node}
    (hatoms : ∀ t ∈ tokensAll atoms, t.IsAtom) :
    memberCount (Node.composite opening atoms closing).tokens = 0 := by
  have hnone := memberCount_of_plain fun t ht => (hatoms t ht).isPlain
  rw [memberCount] at hnone
  simp [memberCount, Node.tokens, Token.opensMember, hnone]

theorem memberCount_group {opening first last closing : Entry} {atoms members : List Node}
    (hatoms : ∀ t ∈ tokensAll atoms, t.IsAtom) :
    memberCount (Node.group opening (.composite first atoms last) members closing).tokens =
      1 + memberCount (tokensAll members) := by
  have htokens : (Node.group opening (.composite first atoms last) members closing).tokens =
      openToken .group opening (.composite first atoms last :: members) ::
        ((Node.composite first atoms last).tokens ++ (tokensAll members ++ [closeToken .group closing])) := by
    simp [Node.tokens, tokensAll]
  rw [htokens, memberCount, List.countP_cons, ← memberCount, memberCount_append, memberCount_append,
    memberCount_dimensions hatoms]
  simp [memberCount, Token.opensMember]
  omega

/-- Members begin with a token that opens one. -/
theorem exists_first (h : AreMembers parts) (hne : parts ≠ []) :
    ∃ first rest, tokensAll parts = first :: rest ∧ first.opensMember = true := by
  cases h with
  | nil => exact absurd rfl hne
  | @single construct opening closing parts rest hconstruct =>
    refine ⟨openToken construct opening parts,
      tokensAll parts ++ [closeToken construct closing] ++ tokensAll rest, rfl, ?_⟩
    rcases hconstruct with rfl | rfl <;> simp [Token.opensMember]
  | group => exact ⟨_, _, rfl, by simp [Token.opensMember]⟩

theorem memberCount_pos (h : AreMembers parts) (hne : parts ≠ []) :
    0 < memberCount (tokensAll parts) := by
  obtain ⟨first, rest, heq, hfirst⟩ := h.exists_first hne
  rw [heq, memberCount, List.countP_cons, if_pos hfirst]
  omega

end AreMembers

/-! ## Where members end -/

/-- Tokens at a place where members begin or end: a member comes next, or groups end first, or the message
ends. -/
inductive Boundary : List Token → Prop
  | message {t : Token} : t.signal = .closes .message → Boundary [t]
  | member {t : Token} {rest : List Token} : t.opensMember = true → Boundary (t :: rest)
  | group {t : Token} {rest : List Token} : t.signal = .closes .group → Boundary rest →
      Boundary (t :: rest)

/-- Whether tokens close groups, and do nothing else. -/
def CloseGroups (ts : List Token) : Prop :=
  ∀ t ∈ ts, t.signal = .closes .group

theorem memberCount_of_closeGroups {ts : List Token} (h : CloseGroups ts) : memberCount ts = 0 :=
  List.countP_eq_zero.mpr fun t ht => by simp [Token.opensMember, h t ht]

/-- Before the next member, nothing but groups is closed, and at last the message. -/
theorem Boundary.take {ts : List Token} (h : Boundary ts) {n : Nat}
    (hcount : memberCount (ts.take n) = 0) :
    CloseGroups (ts.take n) ∨
      ∃ ends t, ts.take n = ends ++ [t] ∧ CloseGroups ends ∧ t.signal = .closes .message := by
  induction h generalizing n with
  | @message t ht =>
    cases n with
    | zero => simp [CloseGroups]
    | succ n => exact .inr ⟨[], t, by simp, by simp [CloseGroups], ht⟩
  | @member t rest ht =>
    cases n with
    | zero => simp [CloseGroups]
    | succ n => simp [memberCount, ht] at hcount
  | @group t rest ht _ ih =>
    -- The end of a group counts for nothing, so it may stand in front of what the hypothesis gives.
    cases n with
    | zero => simp [CloseGroups]
    | succ n =>
      rw [List.take_succ_cons] at hcount ⊢
      have hrest : memberCount (rest.take n) = 0 := by
        rw [memberCount, List.countP_cons] at hcount
        exact Nat.eq_zero_of_add_eq_zero_right hcount
      have hcons {ends : List Token} (hends : CloseGroups ends) : CloseGroups (t :: ends) :=
        List.forall_mem_cons.mpr ⟨ht, hends⟩
      rcases ih hrest with hgroups | ⟨ends, u, hu, hends, hmessage⟩
      · exact .inl (hcons hgroups)
      · exact .inr ⟨t :: ends, u, by rw [hu, List.cons_append], hcons hends, hmessage⟩

/-- Where no member comes, nothing but groups is closed, and at last the message. -/
theorem Boundary.eq_append {ts : List Token} (h : Boundary ts) (hcount : memberCount ts = 0) :
    ∃ ends t, ts = ends ++ [t] ∧ CloseGroups ends ∧ t.signal = .closes .message := by
  induction h with
  | @message t ht => exact ⟨[], t, rfl, by simp [CloseGroups], ht⟩
  | member ht => simp [memberCount, ht] at hcount
  | @group t rest ht _ ih =>
    rw [memberCount, List.countP_cons] at hcount
    obtain ⟨ends, u, rfl, hends, hu⟩ := ih (Nat.eq_zero_of_add_eq_zero_right hcount)
    exact ⟨t :: ends, u, rfl, List.forall_mem_cons.mpr ⟨ht, hends⟩, hu⟩

/-- What stands behind a token of a list is behind it in the last part, or in the first one. -/
theorem suffix_append_cases {t : Token} {back a b : List Token} (h : t :: back <:+ a ++ b) :
    t :: back <:+ b ∨ ∃ rest, t :: rest <:+ a ∧ back = rest ++ b := by
  obtain ⟨front, h⟩ := h
  rcases List.append_eq_append_iff.mp h with ⟨rest, rfl, hback⟩ | ⟨rest, -, hb⟩
  · cases rest with
    | nil => exact .inl ⟨[], by rw [hback]; rfl⟩
    | cons u rest =>
      obtain ⟨rfl, rfl⟩ := List.cons.inj hback
      exact .inr ⟨rest, ⟨front, rfl⟩, rfl⟩
  · exact .inl ⟨rest, hb.symm⟩

namespace AreMembers

variable {parts : List Node} {tail : List Token}

/-- Where members come next, members begin or end. -/
theorem boundary (h : AreMembers parts) (htail : Boundary tail) :
    Boundary (tokensAll parts ++ tail) := by
  by_cases hne : parts = []
  · rw [hne]
    exact htail
  · obtain ⟨first, rest, heq, hfirst⟩ := h.exists_first hne
    rw [heq]
    exact .member hfirst

/-- Behind the end of a group, members begin or end. -/
theorem boundary_behind (h : AreMembers parts) {t : Token} (ht : t.signal = .closes .group)
    {back : List Token} (hback : t :: back <:+ tokensAll parts) (htail : Boundary tail) :
    Boundary (back ++ tail) := by
  induction h generalizing back tail with
  | nil => simp [tokensAll] at hback
  | @single construct opening closing parts rest hconstruct hplain hrest ih =>
    rcases suffix_append_cases hback with hback | ⟨inner, hinner, rfl⟩
    · exact ih hback htail
    · -- Nothing in a field or in variable data ends a group.
      have hmem : t ∈ (Node.span construct opening parts closing).tokens :=
        hinner.subset (List.mem_cons_self ..)
      rw [Node.tokens, List.mem_cons, List.mem_append, List.mem_singleton] at hmem
      rcases hmem with rfl | hmem | rfl
      · simp at ht
      · exact absurd ht ((hplain t hmem).signal_ne_closes (by decide))
      · rcases hconstruct with rfl | rfl <;> simp at ht
  | @group opening first last closing atoms members rest hatoms hmembers hrest ihmembers ihrest =>
    rcases suffix_append_cases hback with hback | ⟨inner, hinner, rfl⟩
    · exact ihrest hback htail
    · have hbehind : Boundary (tokensAll rest ++ tail) := hrest.boundary htail
      have htokens : (Node.group opening (.composite first atoms last) members closing).tokens =
          (openToken .group opening (.composite first atoms last :: members) ::
            (Node.composite first atoms last).tokens) ++
          (tokensAll members ++ [closeToken .group closing]) := by
        simp [Node.tokens, tokensAll]
      rw [htokens] at hinner
      rw [List.append_assoc]
      rcases suffix_append_cases hinner with hinner | ⟨_, hinner, -⟩
      · rcases suffix_append_cases hinner with hlast | ⟨inner, hmembers', rfl⟩
        · obtain ⟨rfl, rfl⟩ : t = closeToken .group closing ∧ inner = [] := by
            simpa [List.suffix_cons_iff] using hlast
          exact hbehind
        · rw [List.append_assoc]
          exact ihmembers hmembers' (.group (by simp) hbehind)
      · -- Nothing in the dimensions ends a group.
        have hmem : t ∈ _ := hinner.subset (List.mem_cons_self ..)
        rw [Node.tokens, List.mem_cons, List.mem_cons, List.mem_append, List.mem_singleton] at hmem
        rcases hmem with rfl | rfl | hmem | rfl
        · simp at ht
        · simp at ht
        · exact absurd ht ((hatoms t hmem).isPlain.signal_ne_closes (by decide))
        · simp at ht

/-- In a message, members begin or end behind the end of a group. -/
theorem boundary_of_message (h : AreMembers parts) {opening closing : Entry} {place : Nat} {t : Token}
    (hplace : (Node.span .message opening parts closing).tokens[place]? = some t)
    (ht : t.signal = .closes .group) :
    Boundary ((Node.span .message opening parts closing).tokens.drop (place + 1)) := by
  obtain ⟨hlt, rfl⟩ := List.getElem?_eq_some_iff.mp hplace
  have hsuffix := List.drop_suffix place (Node.span .message opening parts closing).tokens
  rw [List.drop_eq_getElem_cons hlt] at hsuffix
  generalize (Node.span .message opening parts closing).tokens[place] = t at ht hsuffix
  generalize (Node.span .message opening parts closing).tokens.drop (place + 1) = back at hsuffix ⊢
  rw [Node.tokens, List.suffix_cons_iff] at hsuffix
  rcases hsuffix with hfirst | hsuffix
  · obtain ⟨rfl, -⟩ := List.cons.inj hfirst
    simp at ht
  · rcases suffix_append_cases hsuffix with hlast | ⟨inner, hinner, rfl⟩
    · obtain ⟨rfl, rfl⟩ : t = closeToken .message closing ∧ back = [] := by
        simpa [List.suffix_cons_iff] using hlast
      simp at ht
    · exact h.boundary_behind ht hinner (.message rfl)

end AreMembers

/-! ## Where counts lead -/

section

variable {all : List Token} {start stop : Nat}

theorem getLast?_cut (hlt : start < stop) (hstop : stop ≤ all.length) :
    (cut all start stop).getLast? = all[stop - 1]? := by
  have hlength : (cut all start stop).length = stop - start := by
    rw [cut_eq_take, List.length_take, List.length_drop]
    omega
  rw [List.getLast?_eq_getElem?, hlength, cut_eq_take, List.getElem?_take_of_lt (by omega),
    List.getElem?_drop]
  congr 1
  omega

/-- A count leads behind a token that closes the construct. -/
theorem last_of_endIndex {token : Token} {rest : List Token} {construct : Construct}
    (hstart : all.drop start = token :: rest) (hs : token.signal = .opens construct)
    (h : endIndex all start = .ok stop) :
    ∃ last, all[stop - 1]? = some last ∧ last.signal = .closes construct ∧ start < stop ∧
      stop ≤ all.length := by
  rw [endIndex, hstart] at h
  cases hspan : spanLength (token :: rest) with
  | error fault =>
    rw [hspan] at h
    cases h
  | ok span =>
    rw [hspan] at h
    -- What ends a span closes what the first token opens.
    obtain rfl : start + span.1 = stop := Except.ok.inj h
    obtain ⟨-, last, hlast, hends⟩ := count_of_spanLength hspan
    have hpositive := span.2.1
    have hinside : start + span.1 ≤ all.length := by
      have hlength := congrArg List.length hstart
      rw [List.length_drop] at hlength
      have := span.2.2
      omega
    refine ⟨last, ?_, by simpa [Token.mayEndWith, hs] using hends, by omega, hinside⟩
    have hplace : all[start + span.1 - 1]? = (all.drop start)[span.1 - 1]? := by
      rw [List.getElem?_drop]
      congr 1
      omega
    rw [hplace, hstart]
    exact hlast

/-- A token that is not in a part of the list stands behind it. -/
theorem length_le_of_not_mem {front back : List Token} {t : Token} {place : Nat}
    (hstart : all.drop start = front ++ back) (hplace : all[place]? = some t) (hle : start ≤ place)
    (ht : t ∉ front) : start + front.length ≤ place := by
  by_contra hshort
  have hindex : place = start + (place - start) := by omega
  rw [hindex, ← List.getElem?_drop, hstart, List.getElem?_append_left (by omega)] at hplace
  exact ht (List.mem_of_getElem? hplace)

variable {construct : Construct} {opening closing : Entry} {parts : List Node} {tail : List Token}

/-- A count does not lead into a construct that has no other of its kind in it. -/
theorem size_le_of_endIndex (hparts : ∀ t ∈ tokensAll parts, t.signal ≠ .closes construct)
    (hstart : all.drop start = (Node.span construct opening parts closing).tokens ++ tail)
    (h : endIndex all start = .ok stop) :
    start + (Node.span construct opening parts closing).size ≤ stop := by
  obtain ⟨last, hlast, hcloses, hlt, -⟩ :=
    last_of_endIndex (hstart.trans (Walk.tokens_span_append ..)) (Node.signal_openToken ..) h
  have hfront : last ∉ openToken construct opening parts :: tokensAll parts := by
    rw [List.mem_cons]
    rintro (rfl | hmem)
    · simp at hcloses
    · exact hparts last hmem hcloses
  have hle := length_le_of_not_mem (hstart.trans (Walk.tokens_span_append ..)) hlast (by omega) hfront
  rw [List.length_cons, Node.length_tokensAll] at hle
  rw [Node.size]
  omega

/-- Where members begin or end, a member comes before a token that ends something else than a group or the
message. -/
theorem memberCount_cut_pos (hboundary : Boundary (all.drop start)) (hlt : start < stop)
    (hstop : stop ≤ all.length) {last : Token} (hlast : all[stop - 1]? = some last)
    (hgroup : last.signal ≠ .closes .group) (hmessage : last.signal ≠ .closes .message) :
    0 < memberCount (cut all start stop) := by
  by_contra hcount
  have hgetLast := (getLast?_cut hlt hstop).trans hlast
  rw [cut_eq_take] at hcount hgetLast
  rcases hboundary.take (Nat.eq_zero_of_not_pos hcount) with hgroups | ⟨ends, t, ht, -, hcloses⟩
  · exact hgroup (hgroups last (List.mem_of_getLast? hgetLast))
  · rw [ht, List.getLast?_concat, Option.some.injEq] at hgetLast
    exact hmessage (hgetLast ▸ hcloses)

/-- Where members begin or end, nothing but groups is closed before a token that closes a group, if no
member comes before it. -/
theorem closeGroups_cut (hboundary : Boundary (all.drop start)) (hstop : stop ≤ all.length)
    {last : Token} (hlast : all[stop - 1]? = some last) (hgroup : last.signal = .closes .group)
    (hcount : memberCount (cut all start stop) = 0) : CloseGroups (cut all start stop) := by
  by_cases hlt : start < stop
  · have hgetLast := (getLast?_cut hlt hstop).trans hlast
    rw [cut_eq_take] at hcount hgetLast ⊢
    rcases hboundary.take hcount with hgroups | ⟨ends, t, ht, -, hcloses⟩
    · exact hgroups
    · rw [ht, List.getLast?_concat, Option.some.injEq] at hgetLast
      rw [hgetLast, hgroup] at hcloses
      cases hcloses
  · rw [cut_of_le (by omega)]
    simp [CloseGroups]

/-- A count of a field or of variable data that takes in one member leads to the end of it. -/
theorem stop_eq_of_single (hconstruct : construct = .field ∨ construct = .varData)
    (hplain : ∀ t ∈ tokensAll parts, t.IsPlain)
    (hstart : all.drop start = (Node.span construct opening parts closing).tokens ++ tail)
    (hboundary : Boundary tail) (h : endIndex all start = .ok stop)
    (hcount : memberCount (cut all start stop) ≤ 1) :
    stop = start + (Node.span construct opening parts closing).size := by
  have hle := size_le_of_endIndex (fun t ht => (hplain t ht).signal_ne_closes (by
    rcases hconstruct with rfl | rfl <;> decide)) hstart h
  obtain ⟨last, hlast, hcloses, -, hstop⟩ :=
    last_of_endIndex (hstart.trans (Walk.tokens_span_append ..)) (Node.signal_openToken ..) h
  by_contra hne
  have hbehind := Node.drop_add_of_append _ hstart
  rw [Node.length_tokens] at hbehind
  have hfirst : 0 < memberCount (cut all start (start +
      (Node.span construct opening parts closing).size)) := by
    rw [← Node.length_tokens, cut_of_drop hstart, Node.tokens]
    rcases hconstruct with rfl | rfl <;> simp [memberCount, Token.opensMember]
  have hmore := memberCount_cut_pos (hbehind ▸ hboundary) (by omega) hstop hlast
    (by rw [hcloses]; rcases hconstruct with rfl | rfl <;> decide)
    (by rw [hcloses]; rcases hconstruct with rfl | rfl <;> decide)
  rw [cut_append (Nat.le_add_right ..) hle, memberCount_append] at hcount
  omega

/-- A count of dimensions that takes in no member leads to the end of them. -/
theorem stop_eq_of_dimensions {atoms : List Node} (hatoms : ∀ t ∈ tokensAll atoms, t.IsAtom)
    {first : Token} (hfirst : first.opensMember = true)
    (hstart : all.drop start = (Node.composite opening atoms closing).tokens ++ first :: tail)
    (h : endIndex all start = .ok stop) (hcount : memberCount (cut all start stop) = 0) :
    stop = start + (Node.composite opening atoms closing).size := by
  have hle : start + (Node.composite opening atoms closing).size ≤ stop :=
    size_le_of_endIndex (fun t ht => (hatoms t ht).signal_ne_closes) hstart h
  by_contra hne
  have hbehind := Node.drop_add_of_append _ hstart
  rw [Node.length_tokens] at hbehind
  rw [cut_append (Nat.le_add_right ..) hle, memberCount_append, cut_eq_take _ (start + _), hbehind]
    at hcount
  obtain ⟨n, hn⟩ := Nat.exists_eq_succ_of_ne_zero
    (show stop - (start + (Node.composite opening atoms closing).size) ≠ 0 by omega)
  rw [hn, List.take_succ_cons] at hcount
  simp [memberCount, hfirst] at hcount

end

/-- Whether a count that is not refused takes in as many members as there are, at each of some spans. -/
def Node.CountMembers (ts : List Token) (spans : List (Nat × Nat)) : Prop :=
  ∀ span ∈ spans, ∀ stop, endIndex ts span.1 = .ok stop →
    memberCount (cut ts span.1 stop) = memberCount (cut ts span.1 span.2)

theorem Node.countMembers_append {ts : List Token} {a b : List (Nat × Nat)} :
    CountMembers ts (a ++ b) ↔ CountMembers ts a ∧ CountMembers ts b := by
  simp only [CountMembers, List.mem_append, or_imp, forall_and]

theorem Node.countMembers_cons {ts : List Token} {span : Nat × Nat} {spans : List (Nat × Nat)} :
    CountMembers ts (span :: spans) ↔
      (∀ stop, endIndex ts span.1 = .ok stop →
        memberCount (cut ts span.1 stop) = memberCount (cut ts span.1 span.2)) ∧
      CountMembers ts spans := by
  simp only [CountMembers, List.forall_mem_cons]

namespace Node

mutual

/-- Where a member begins and ends, and for a group its dimensions and its members too. If there are no
members, no count of the dimensions can take one in. -/
def memberSpans (start : Nat) : Node → List (Nat × Nat)
  | .span .group opening (dimensions :: members) closing =>
    (start, start + (group opening dimensions members closing).size) ::
      ((if members.isEmpty then [] else [(start + 1, start + 1 + dimensions.size)]) ++
        memberSpansAll (start + 1 + dimensions.size) members)
  | n => [(start, start + n.size)]

/-- Where members begin and end, with what is in them. -/
def memberSpansAll (start : Nat) : List Node → List (Nat × Nat)
  | [] => []
  | n :: rest => memberSpans start n ++ memberSpansAll (start + n.size) rest

end

theorem memberSpans_single {construct : Construct} (h : construct = .field ∨ construct = .varData)
    (start : Nat) (opening closing : Entry) (parts : List Node) :
    memberSpans start (.span construct opening parts closing) =
      [(start, start + (span construct opening parts closing).size)] := by
  rcases h with rfl | rfl <;> rfl

end Node

/-! ## Where a walk stands -/

/-- Whether a walk that goes up to a place stands before members that begin at another: nothing but ends
of groups comes before them, and what is ahead opens as many members as there are. -/
structure Stands (all : List Token) (parts : List Node) (start cursor stop : Nat) : Prop where
  boundary : Boundary (all.drop cursor)
  ends : parts ≠ [] → cursor ≤ start ∧ CloseGroups (cut all cursor start)
  count : memberCount (cut all cursor stop) = memberCount (tokensAll parts)

namespace Stands

variable {all tail : List Token} {start cursor stop place : Nat} {parts rest : List Node} {n : Node}

/-- A walk may stand where the members begin. -/
theorem of_start (h : AreMembers parts) (hstart : all.drop start = tokensAll parts ++ tail)
    (htail : Boundary tail) (hcount : memberCount (cut all start stop) = memberCount (tokensAll parts)) :
    Stands all parts start start stop := by
  refine ⟨?_, fun _ => ⟨Nat.le_refl _, ?_⟩, hcount⟩
  · rw [hstart]
    exact h.boundary htail
  · rw [cut_of_le (Nat.le_refl _)]
    simp [CloseGroups]

/-- What is ahead is some ends of groups, and then the first member. -/
theorem split (h : Stands all parts start cursor stop) (hparts : AreMembers parts)
    (hne : parts ≠ []) :
    start < stop ∧ cut all cursor stop = cut all cursor start ++ cut all start stop ∧
      memberCount (cut all start stop) = memberCount (tokensAll parts) := by
  obtain ⟨hle, hends⟩ := h.ends hne
  have hnone := memberCount_of_closeGroups hends
  have hsome := hparts.memberCount_pos hne
  have hlt : start < stop := by
    by_contra hnot
    have hfew := memberCount_cut_le all cursor (Nat.le_of_not_lt hnot)
    have := h.count
    omega
  have hsplit := @cut_append all _ _ _ hle (Nat.le_of_lt hlt)
  refine ⟨hlt, hsplit, ?_⟩
  have hcount := h.count
  rw [hsplit, memberCount_append] at hcount
  omega

/-- Behind a member, a walk stands before the next one. -/
theorem behind (h : Stands all (n :: rest) start cursor stop) (hparts : AreMembers (n :: rest))
    (hboundary : Boundary (all.drop place)) (hle : start ≤ place) (hstop : place ≤ stop)
    (hcount : memberCount (cut all start place) = memberCount n.tokens)
    (hends : rest ≠ [] → place ≤ start + n.size ∧ CloseGroups (cut all place (start + n.size))) :
    Stands all rest (start + n.size) place stop := by
  refine ⟨hboundary, hends, ?_⟩
  obtain ⟨-, -, hall⟩ := h.split hparts (by simp)
  rw [cut_append hle hstop, tokensAll, memberCount_append, memberCount_append] at hall
  omega

end Stands

section

variable {all tail : List Token} {start place stop : Nat} {opening first last closing : Entry}
  {atoms members rest : List Node}

/-- What stands in a group: its dimensions, its members and what closes it. -/
theorem drop_group (hstart : all.drop start =
      (Node.group opening (.composite first atoms last) members closing).tokens ++ tail) :
    all.drop (start + 1) = (Node.composite first atoms last).tokens ++
        (tokensAll members ++ closeToken .group closing :: tail) ∧
      all.drop (start + 1 + (Node.composite first atoms last).size) =
        tokensAll members ++ closeToken .group closing :: tail := by
  have hinside : all.drop (start + 1) = (Node.composite first atoms last).tokens ++
      (tokensAll members ++ closeToken .group closing :: tail) := by
    have hwhole : all.drop start =
        (Node.group opening (.composite first atoms last) members closing).tokens ++ [] ++ tail := by
      rw [hstart, List.append_nil]
    rw [Node.drop_inside hwhole]
    simp only [tokensAll, List.append_assoc, List.cons_append, List.nil_append]
  refine ⟨hinside, ?_⟩
  rw [← Node.length_tokens]
  exact Node.drop_add_of_append _ hinside

/-- In a group whose count takes in its members, a walk may stand before these. -/
theorem Stands.inside (hatoms : ∀ t ∈ tokensAll atoms, t.IsAtom) (hmembers : AreMembers members)
    (htail : Boundary tail) (hstart : all.drop start =
      (Node.group opening (.composite first atoms last) members closing).tokens ++ tail)
    (hcount : memberCount (cut all start place) =
      memberCount (Node.group opening (.composite first atoms last) members closing).tokens) :
    Stands all members (start + 1 + (Node.composite first atoms last).size)
      (start + 1 + (Node.composite first atoms last).size) place := by
  obtain ⟨-, hbehind⟩ := drop_group hstart
  generalize hlead : start + 1 + (Node.composite first atoms last).size = inside at hbehind ⊢
  refine .of_start hmembers hbehind (.group (by simp) htail) ?_
  -- In front of the members, only the group itself counts.
  have hopens : memberCount (cut all start inside) = 1 := by
    have hfront : all.drop start = (openToken .group opening (.composite first atoms last :: members) ::
          (Node.composite first atoms last).tokens) ++
        (tokensAll members ++ closeToken .group closing :: tail) := by
      rw [hstart]
      simp [Node.tokens, tokensAll]
    have hcut := cut_of_drop hfront
    rw [List.length_cons, Node.length_tokens, Nat.add_comm _ 1, ← Nat.add_assoc, hlead] at hcut
    rw [hcut, memberCount, List.countP_cons, ← memberCount, AreMembers.memberCount_dimensions hatoms]
    simp [Token.opensMember]
  rw [AreMembers.memberCount_group hatoms] at hcount
  by_cases hle : inside ≤ place
  · rw [cut_append (show start ≤ inside by omega) hle, memberCount_append] at hcount
    omega
  · have hfew := memberCount_cut_le all start (Nat.le_of_not_le hle)
    rw [cut_of_le (Nat.le_of_not_le hle)]
    simp only [memberCount, List.countP_nil] at hfew hcount hopens ⊢
    omega

/-- A count of a group that takes in its members leads to the end of it, or to ends of groups in it. -/
theorem closeGroups_behind (hrest : AreMembers rest) (hne : rest ≠ [])
    (hboundary : Boundary (all.drop place)) {parts : List Node}
    (hstart : all.drop start = (Node.span .group opening parts closing).tokens ++ (tokensAll rest ++ tail))
    (hle : start ≤ place)
    (hcount : memberCount (cut all start place) =
      memberCount (Node.span .group opening parts closing).tokens) :
    place ≤ start + (Node.span .group opening parts closing).size ∧
      CloseGroups (cut all place (start + (Node.span .group opening parts closing).size)) := by
  have hcut := cut_of_drop hstart
  have hbehind := Node.drop_add_of_append _ hstart
  rw [Node.length_tokens] at hcut hbehind
  generalize hend : start + (Node.span .group opening parts closing).size = stop at hcut hbehind ⊢
  obtain ⟨next, more, hnext, hopens⟩ := hrest.exists_first hne
  have hplace : place ≤ stop := by
    -- A place farther on would take in what opens the next member, and count one more.
    by_contra hnot
    obtain ⟨n, hn⟩ := Nat.exists_eq_succ_of_ne_zero (show place - stop ≠ 0 by omega)
    rw [cut_append (show start ≤ stop by omega) (by omega), memberCount_append, hcut,
      cut_eq_take all stop, hbehind, hnext, hn, List.cons_append, List.take_succ_cons] at hcount
    simp [memberCount, hopens] at hcount
  refine ⟨hplace, ?_⟩
  have hlast : all[stop - 1]? = some (closeToken .group closing) := by
    have hindex : stop - 1 = start + (sizeAll parts + 1) := by
      rw [← hend, Node.size]
      rfl
    rw [hindex, ← List.getElem?_drop, hstart, Walk.tokens_span_append, List.getElem?_cons_succ,
      List.getElem?_append_right (by simp), Node.length_tokensAll, Nat.sub_self, List.getElem?_cons_zero]
  have hlength : stop ≤ all.length := by
    have := (List.getElem?_eq_some_iff.mp hlast).1
    omega
  refine closeGroups_cut hboundary hlength hlast (by simp) ?_
  rw [← hcut, cut_append hle hplace, memberCount_append] at hcount
  omega

end

end SimpleBinary
