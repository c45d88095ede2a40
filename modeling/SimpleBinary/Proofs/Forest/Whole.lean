import SimpleBinary.Proofs.Forest.Agreement
import SimpleBinary.Proofs.Forest.Brackets
import SimpleBinary.Proofs.Forest.Schema
import SimpleBinary.Proofs.Package.Modules

/-!
Lists of one construct.

A schema has a module for its header, for each type and for each message, from a list of tokens for each. The
list begins with a token that opens a construct, and with all counts left to the reader its span ends where
the brackets close the construct. That is the end of the list if and only if nothing stands behind the
construct (`Schema.ofDatum_endIndex`).

Nothing asks for that. What stands behind is well bracketed too, and messages in one list make one class with
the members of all of them (`MessageTree.memberSteps_all`).
-/

set_option autoImplicit false

namespace SimpleBinary

open Node (tokensAll entriesAll uncountedAll DerivedAll openToken)

/-- Whether signals are those of one construct, from the one that opens it to the one that closes it. -/
def IsWhole (signals : List Signal) : Prop :=
  ∃ c inside, Bracketed inside ∧ signals = .opens c :: (inside ++ [.closes c])

/-- The tokens of a list with all their counts left to the reader. -/
def Token.recount (ts : List Token) : Except Fault (List Token) :=
  Entry.pair 0 [] [] (ts.map fun t => ⟨t.uncounted, false⟩)

/-! ## Lists that begin with a construct -/

namespace Bracketed

variable {signals inside rest : List Signal} {c : Construct}

/-- A well-bracketed list that begins with a construct, cut behind it. -/
theorem exists_span (h : Bracketed (.opens c :: signals)) :
    ∃ inside rest, Bracketed inside ∧ Bracketed rest ∧ signals = inside ++ .closes c :: rest := by
  generalize hall : Signal.opens c :: signals = all at h
  cases h with
  | nil => cases hall
  | atom a => exact absurd (List.cons.inj hall).1.symm (atom_ne_opens a c)
  | @span inside rest d hinside hrest =>
    obtain ⟨hsignal, rfl⟩ := List.cons.inj hall
    obtain rfl := Signal.opens.inj hsignal
    exact ⟨inside, rest, hinside, hrest, rfl⟩

/-- A construct is all of a list exactly if nothing stands behind it. -/
theorem isWhole_span (h : Bracketed inside) :
    IsWhole (.opens c :: (inside ++ .closes c :: rest)) ↔ rest = [] := by
  constructor
  · rintro ⟨d, others, hothers, heq⟩
    obtain ⟨-, heq⟩ := List.cons.inj heq
    -- The construct is closed at one place only, so nothing is left on either side.
    obtain rfl := closes_unique h hothers heq
    exact (List.cons.inj (List.append_cancel_left heq)).2
  · rintro rfl
    exact ⟨c, inside, h, rfl⟩

end Bracketed

/-- **The span of the first token**, where it opens a construct and spans match: up to the token that closes
the construct. -/
theorem SpansMatch.endIndex_zero {ts : List Token} (h : SpansMatch ts) {c : Construct}
    {inside rest : List Signal} (hinside : Bracketed inside)
    (hsignals : ts.map Token.signal = .opens c :: (inside ++ .closes c :: rest)) :
    endIndex ts 0 = .ok (inside.length + 2) := by
  obtain ⟨first, more, rfl, hfirst, -⟩ := List.map_eq_cons_iff.mp hsignals
  obtain ⟨j, hj, hmatches⟩ := h.construct 0 (by simp) c hfirst
  have hclose : Matches ((first :: more).map Token.signal) 0 (inside.length + 1) := by
    rw [hsignals]
    exact .span c rest hinside
  rw [hj, ← (hmatches _).mp hclose]

/-! ## Counts left to the reader -/

namespace Token

theorem recount_tokensAll (forest : List Node) :
    recount (tokensAll forest) = .ok (tokensAll (uncountedAll forest)) := by
  have hentries : (tokensAll forest).map (fun t => (⟨t.uncounted, false⟩ : Entry)) =
      (entriesAll forest).map Entry.uncounted := by
    refine Node.map_tokensAll _ (fun e c n _ => ?_) forest
    unfold Entry.withCount
    split <;> rfl
  rw [recount, hentries, ← Node.entriesAll_uncounted]
  exact Entry.pair_ok.mpr ⟨uncountedAll forest, rfl, rfl⟩

/-- The tokens of an accepted list are a forest. -/
theorem exists_forest {d : Datum} {ts : List Token} (h : listOfDatum d = .ok ts) :
    ∃ forest, ts = tokensAll forest := by
  rw [listOfDatum] at h
  split at h
  · obtain ⟨items, -, h⟩ := except_bind_ok h
    obtain ⟨es, -, h⟩ := except_bind_ok h
    obtain ⟨forest, -, hts⟩ := Entry.pair_ok.mp h
    exact ⟨forest, hts⟩
  · exact ⟨[], (Except.ok.inj h).symm⟩

/-- The tokens of an accepted list are well bracketed. -/
theorem bracketed_of_listOfDatum {d : Datum} {ts : List Token} (h : listOfDatum d = .ok ts) :
    Bracketed (ts.map signal) := by
  obtain ⟨forest, rfl⟩ := exists_forest h
  rw [Node.map_tokensAll _ fun e c n _ => Entry.signal_withCount e n]
  exact Node.bracketed_entriesAll forest

/-- A list with its counts left to the reader is what a document without counts gives. -/
theorem listOfDatum_withoutCounts {items : List Datum} {ts : List Token}
    (h : listOfDatum (.list items) = .ok ts) :
    listOfDatum (.list (Datum.withoutCounts items)) = recount ts := by
  rw [listOfDatum_list] at h
  obtain ⟨es, hes, h⟩ := except_bind_ok h
  obtain ⟨forest, rfl, rfl⟩ := Entry.pair_ok.mp h
  rw [listOfDatum_list, Entry.listOf_withoutCounts hes, recount_tokensAll]
  exact Entry.pair_ok.mpr ⟨uncountedAll forest, (Node.entriesAll_uncounted forest).symm, rfl⟩

theorem spansMatch_uncounted (forest : List Node) : SpansMatch (tokensAll (uncountedAll forest)) := by
  refine Node.spansMatch (Node.derivedAll_uncounted forest) fun e he => ?_
  rw [Node.entriesAll_uncounted] at he
  obtain ⟨original, -, rfl⟩ := List.mem_map.mp he
  rfl

/-- An accepted list whose first token opens a construct begins with that construct, and with the counts left
to the reader the first token spans it. -/
theorem exists_recount {d : Datum} {ts : List Token} (h : listOfDatum d = .ok ts) {first : Token}
    {c : Construct} (hfirst : ts.head? = some first) (hopens : first.signal = .opens c) :
    ∃ derived inside rest, recount ts = .ok derived ∧ SpansMatch derived ∧
      derived.map uncounted = ts.map uncounted ∧
      ts.map signal = .opens c :: (inside ++ .closes c :: rest) ∧ Bracketed inside ∧ Bracketed rest ∧
      endIndex derived 0 = .ok (inside.length + 2) := by
  have hbracketed := bracketed_of_listOfDatum h
  obtain ⟨forest, rfl⟩ := exists_forest h
  -- The counts are no matter for the signals, so both lists begin with the same construct.
  have hsame := Node.tokensAll_uncounted forest
  have hsignals : (tokensAll (uncountedAll forest)).map signal = (tokensAll forest).map signal := by
    have := congrArg (List.map signal) hsame
    rwa [List.map_map, List.map_map] at this
  obtain ⟨more, hmore⟩ : ∃ more, (tokensAll forest).map signal = .opens c :: more := by
    cases hall : tokensAll forest with
    | nil =>
      rw [hall] at hfirst
      cases hfirst
    | cons token tokens =>
      rw [hall] at hfirst
      obtain rfl := Option.some.inj hfirst
      exact ⟨tokens.map signal, by rw [List.map_cons, hopens]⟩
  rw [hmore] at hbracketed
  obtain ⟨inside, rest, hinside, hrest, rfl⟩ := hbracketed.exists_span
  have hspans := spansMatch_uncounted forest
  exact ⟨_, inside, rest, recount_tokensAll forest, hspans, hsame, hmore, hinside, hrest,
    hspans.endIndex_zero hinside (hsignals.trans hmore)⟩

end Token

/-! ## Lists of schemas -/

namespace Schema

/-- The lists that a schema has modules for. The composite of the header has its module from the header. -/
inductive IsRendered (s : Schema) : List Token → Prop
  | header : IsRendered s s.header.tokens
  | type {ts : List Token} {entity : Entity} : ts ∈ s.types →
      Entity.ofType s.toEdition ts = .ok (.inl entity) → IsRendered s ts
  | message {ts : List Token} : ts ∈ s.messages → IsRendered s ts

variable {package : Option String} {d : Datum} {s : Schema} {ts : List Token}

theorem exists_list_of_mem {entries : List (Datum × Datum)} {key : String} {lists : List (List Token)}
    (h : tokenLists entries key = .ok lists) (hts : ts ∈ lists) :
    ∃ list, Token.listOfDatum list = .ok ts := by
  unfold tokenLists at h
  split at h
  · obtain rfl := Except.ok.inj h
    cases hts
  · obtain ⟨parts, -, h⟩ := except_bind_ok h
    obtain ⟨list, -, hlist⟩ := exists_of_mem_mapM h hts
    exact ⟨list, hlist⟩

/-- The tokens of a header begin with a composite. -/
theorem opens_of_header {header : Header} (h : Header.ofTokens ts = .ok header) :
    header.tokens = ts ∧ ∃ first, ts.head? = some first ∧ first.signal = .opens .composite := by
  unfold Header.ofTokens at h
  split at h
  · rename_i hfirst
    split at h
    · obtain rfl := Except.ok.inj h
      exact ⟨rfl, _, hfirst, rfl⟩
    · cases h
  · cases h

/-- The tokens of a type that has a module begin with a construct. -/
theorem opens_of_type {e : Edition} {entity : Entity} (h : Entity.ofType e ts = .ok (.inl entity)) :
    ∃ first c, ts.head? = some first ∧ first.signal = .opens c := by
  cases ts with
  | nil => cases h
  | cons first rest =>
    obtain ⟨typeName, -, h⟩ := except_bind_ok h
    split at h
    · exact ⟨first, _, rfl, ‹_›⟩
    · exact ⟨first, _, rfl, ‹_›⟩
    · exact ⟨first, _, rfl, ‹_›⟩
    · cases h

theorem opens_of_beginsMessage (h : beginsMessage ts = true) :
    ∃ first, ts.head? = some first ∧ first.signal = .opens .message := by
  obtain ⟨first, hfirst, hsignal⟩ := (Option.any_eq_true ..).mp h
  exact ⟨first, hfirst, eq_of_beq hsignal⟩

/-- The lists of a schema come from lists in its document; those of the header and of the messages begin with
what they are for. -/
theorem ofDatum_ok (h : ofDatum package d = .ok s) :
    (∃ list, Token.listOfDatum list = .ok s.header.tokens) ∧
      Header.ofTokens s.header.tokens = .ok s.header ∧
      (∀ ts ∈ s.types, ∃ list, Token.listOfDatum list = .ok ts) ∧
      ∀ ts ∈ s.messages, beginsMessage ts = true ∧ ∃ list, Token.listOfDatum list = .ok ts := by
  unfold ofDatum at h
  split at h
  · obtain ⟨namespaces, -, h⟩ := except_bind_ok h
    split at h
    · cases h
    · rename_i headerList _
      obtain ⟨headerTokens, hheaderTokens, h⟩ := except_bind_ok h
      obtain ⟨header, hheader, h⟩ := except_bind_ok h
      obtain ⟨types, htypes, h⟩ := except_bind_ok h
      obtain ⟨messages, hmessages, h⟩ := except_bind_ok h
      split at h
      · rename_i hall
        obtain ⟨id, -, h⟩ := except_bind_ok h
        obtain ⟨version, -, h⟩ := except_bind_ok h
        obtain rfl := Except.ok.inj h
        obtain ⟨rfl, -⟩ := opens_of_header hheader
        exact ⟨⟨headerList, hheaderTokens⟩, hheader, fun ts hts => exists_list_of_mem htypes hts,
          fun ts hts => ⟨List.all_eq_true.mp hall ts hts, exists_list_of_mem hmessages hts⟩⟩
      · cases h
  · cases h

/-- A list that a schema has a module for is one of its document, and begins with a construct: each kind of
list has its own check of the first token. -/
theorem IsRendered.exists_list (hts : s.IsRendered ts) (h : ofDatum package d = .ok s) :
    ∃ list first c, Token.listOfDatum list = .ok ts ∧ ts.head? = some first ∧ first.signal = .opens c := by
  obtain ⟨⟨headerList, hheaderList⟩, hheader, htypes, hmessages⟩ := ofDatum_ok h
  cases hts with
  | header =>
    obtain ⟨-, first, hfirst, hopens⟩ := opens_of_header hheader
    exact ⟨headerList, first, _, hheaderList, hfirst, hopens⟩
  | type hmem hentity =>
    obtain ⟨list, hlist⟩ := htypes _ hmem
    obtain ⟨first, c, hfirst, hopens⟩ := opens_of_type hentity
    exact ⟨list, first, c, hlist, hfirst, hopens⟩
  | message hmem =>
    obtain ⟨hbegins, list, hlist⟩ := hmessages _ hmem
    obtain ⟨first, hfirst, hopens⟩ := opens_of_beginsMessage hbegins
    exact ⟨list, first, _, hlist, hfirst, hopens⟩

/-- **Where the span of a list ends.** Every list that a schema has a module for begins with a construct.
With all counts left to the reader, spans match the brackets, that of the first token ends where the
construct does, and this is the end of the list if and only if the list is one construct. What stands behind
the construct is well bracketed. -/
theorem ofDatum_endIndex (h : ofDatum package d = .ok s) (hts : s.IsRendered ts) :
    ∃ derived, Token.recount ts = .ok derived ∧ SpansMatch derived ∧
      derived.map Token.uncounted = ts.map Token.uncounted ∧
      (∃ c inside rest, ts.map Token.signal = .opens c :: (inside ++ .closes c :: rest) ∧
        Bracketed inside ∧ Bracketed rest ∧ endIndex derived 0 = .ok (inside.length + 2)) ∧
      (endIndex derived 0 = .ok ts.length ↔ IsWhole (ts.map Token.signal)) := by
  obtain ⟨list, first, c, hlist, hfirst, hopens⟩ := hts.exists_list h
  obtain ⟨derived, inside, rest, hderived, hspans, hsame, hsignals, hinside, hrest, hend⟩ :=
    Token.exists_recount hlist hfirst hopens
  have hlength : ts.length = inside.length + 2 + rest.length := by
    rw [← List.length_map (f := Token.signal), hsignals, List.length_cons, List.length_append,
      List.length_cons]
    omega
  refine ⟨derived, hderived, hspans, hsame, ⟨c, inside, rest, hsignals, hinside, hrest, hend⟩, ?_⟩
  rw [hsignals, Bracketed.isWhole_span hinside, hend, Except.ok.injEq, hlength, ← List.length_eq_zero_iff]
  omega

/-- The items of a message with a price. -/
def orderItems : List Datum := [
  .item (.opens .message) "Order" none (some 1) none,
  .item (.opens .field) "price" none none none,
  .item .encoding "uint8" none (some 1) (some .uint8),
  .item (.closes .field) "price" none none none,
  .item (.closes .message) "Order" none none none]

/-- The items of a message with a reason. -/
def cancelItems : List Datum := [
  .item (.opens .message) "Cancel" none (some 1) none,
  .item (.opens .field) "reason" none none none,
  .item .encoding "uint8" none (some 1) (some .uint8),
  .item (.closes .field) "reason" none none none,
  .item (.closes .message) "Cancel" none none none]

/-- A document with given lists of messages. -/
def ordersDocument (messages : List (List Datum)) : Datum :=
  .map [
    (.text "namespaces", .list [.text "desk"]),
    (.text "header", .list [
      .item (.opens .composite) "messageHeader" none (some 8) none,
      .item .encoding "blockLength" none (some 2) (some .uint16),
      .item .encoding "templateId" none (some 2) (some .uint16),
      .item .encoding "schemaId" none (some 2) (some .uint16),
      .item .encoding "version" none (some 2) (some .uint16),
      .item (.closes .composite) "messageHeader" none none none]),
    (.text "messages", .list (messages.map .list))]

/-- Messages in lists of their own are whole. -/
theorem ordersDocument_whole : ∃ s, ofDatum none (ordersDocument [orderItems, cancelItems]) = .ok s ∧
    s.messages.length = 2 ∧ ∀ ts ∈ s.messages, s.IsRendered ts ∧
      ∃ derived, Token.recount ts = .ok derived ∧ endIndex derived 0 = .ok ts.length := by
  have hcomputed : ((ofDatum none (ordersDocument [orderItems, cancelItems])).map fun s =>
      s.messages.length == 2 && s.messages.all fun ts => ts.map Token.signal ==
        [.opens .message, .opens .field, .encoding, .closes .field, .closes .message]).toOption =
      some true := by
    decide +kernel
  obtain ⟨s, hs, hf⟩ := exists_of_computed hcomputed
  obtain ⟨hlength, hsignals⟩ := Bool.and_eq_true_iff.mp hf
  refine ⟨s, hs, eq_of_beq hlength, fun ts hts => ⟨.message hts, ?_⟩⟩
  have hfield : Bracketed [.opens .field, .encoding, .closes .field] :=
    .span .field (.atom .encoding .nil) .nil
  have hwhole : IsWhole (ts.map Token.signal) := by
    rw [eq_of_beq (List.all_eq_true.mp hsignals ts hts)]
    exact ⟨.message, _, hfield, rfl⟩
  obtain ⟨derived, hderived, -, -, -, hend⟩ := ofDatum_endIndex hs (.message hts)
  exact ⟨derived, hderived, hend.mpr hwhole⟩

/-- **Messages in one list are accepted.** The span of the first one ends where it does, and not at the end of
the list, and there is no module for the other one. -/
theorem ordersDocument_merged : ∃ s ts p,
    ofDatum none (ordersDocument [orderItems ++ cancelItems]) = .ok s ∧ s.messages = [ts] ∧
      ts.length = 10 ∧ endIndex ts 0 = .ok 5 ∧
      (∃ derived, Token.recount ts = .ok derived ∧ endIndex derived 0 = .ok 5) ∧
      s.Generates p ∧ p.exports.map Prod.fst = ["message_header", "order"] := by
  have hcomputed : ((ofDatum none (ordersDocument [orderItems ++ cancelItems])).map fun s =>
      (s.messages.map fun ts => (ts.length, (endIndex ts 0).toOption,
        (Token.recount ts).toOption.bind fun derived => (endIndex derived 0).toOption),
      s.toEdition.isWritable, (s.modules.map (·.map Package.Module.name)).toOption)).toOption =
      some ([(10, some 5, some 5)], true, some ["message_header", "order"]) := by
    decide +kernel
  obtain ⟨s, hs, hf⟩ := exists_of_computed hcomputed
  obtain ⟨hends, hf⟩ := Prod.mk.inj hf
  obtain ⟨hwritable, hnames⟩ := Prod.mk.inj hf
  obtain ⟨ms, p, hms, hmodules, hp⟩ := exists_generates_of_names hnames (by decide) hwritable
  obtain ⟨ts, hmessages, hts⟩ := List.map_eq_singleton_iff.mp hends
  obtain ⟨hlength, hts⟩ := Prod.mk.inj hts
  obtain ⟨hend, hderived⟩ := Prod.mk.inj hts
  obtain ⟨derived, hrecount, hderived⟩ := Option.bind_eq_some_iff.mp hderived
  refine ⟨s, ts, p, hs, hmessages, hlength, toOption_eq_some.mp hend, ?_, hp, ?_⟩
  · exact ⟨derived, toOption_eq_some.mp hrecount, toOption_eq_some.mp hderived⟩
  · rw [(names_of_generates hp hms).1, hmodules]

end Schema

/-! ## Several messages in one list -/

theorem MemberSteps.append {owner : String} {more : List Step} {others : List MemberTree}
    (hmore : MemberSteps owner more others) : ∀ {steps : List Step} {members : List MemberTree},
      MemberSteps owner steps members → MemberSteps owner (steps ++ more) (members ++ others)
  | _, _, .nil => hmore
  | _, _, .cons hstep hsteps => .cons hstep (append hmore hsteps)

namespace MessageTree

/-- Messages one after the other leave the steps of all their members. -/
theorem leavesAll : ∀ (messages : List MessageTree) {w u : Walker},
    Walk.nodes (messages.map node) w = .ok () u →
      ∃ steps, w.Leaves steps u ∧ MemberSteps w.plan.typeName steps (messages.flatMap members)
  | [], w, u, h => by
    obtain ⟨-, rfl⟩ := Walk.pure_ok.mp h
    exact ⟨[], w.leaves_self, .nil⟩
  | m :: rest, w, u, h => by
    rw [List.map_cons, Walk.nodes] at h
    obtain ⟨_, v, hfirst, hrest⟩ := Walk.bind_ok.mp h
    obtain ⟨steps, hleaves, hsteps⟩ := leaves hfirst
    obtain ⟨more, hleavesAll, hmore⟩ := leavesAll rest hrest
    rw [hleaves.typeName_eq] at hmore
    exact ⟨steps ++ more, hleaves.trans hleavesAll, hmore.append hsteps⟩

theorem derivedAll : ∀ messages : List MessageTree, DerivedAll (messages.map node)
  | [] => trivial
  | m :: rest => ⟨⟨rfl, MemberTree.derivedAll m.members⟩, derivedAll rest⟩

/-- **Messages in one list make one class.** The plan of such a list has a step for each member of each of the
messages, in order. -/
theorem memberSteps_all {typeName : String} {m : MessageTree} {others : List MessageTree} {plan : Plan}
    (h : Plan.ofMessage typeName (tokensAll ((m :: others).map node)) = .ok plan) :
    MemberSteps typeName plan.children ((m :: others).flatMap members) := by
  have hfresh : Plan.ofMessage typeName (tokensAll ((m :: others).map node)) =
      Walk.fresh (Plan.blankMessage typeName m.token) (Walk.tokens (tokensAll ((m :: others).map node))) :=
    rfl
  rw [hfresh, Walk.tokens_of_derived (derivedAll (m :: others))] at h
  exact (Walk.fresh_children
    (P := fun steps => MemberSteps typeName steps ((m :: others).flatMap members)) rfl h
    fun _ => leavesAll (m :: others)).1

end MessageTree

end SimpleBinary
