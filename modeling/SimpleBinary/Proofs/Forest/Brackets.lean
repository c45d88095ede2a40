import SimpleBinary.Proofs.Forest.Document

/-!
Well-bracketed lists.

`Bracketed` is the language of the seven pairs of signals, with signals of tokens without parts
anywhere between them, and `Matches` says which closing signal belongs to which opening one. Neither
mentions the reader of token lists, which keeps a stack of open constructs and derives their counts as
they are closed. It accepts the well-bracketed lists and no others, and where no count is given each
count leads just past the token that closes its construct (`Token.listOfDatum_brackets`).
-/

set_option autoImplicit false

namespace SimpleBinary

open Node (tokensAll entriesAll sizeAll closeToken openToken DerivedAll)

/-- A well-bracketed list of signals. What stands between a signal that opens a construct and the one
that closes it is well bracketed too. -/
inductive Bracketed : List Signal → Prop
  | nil : Bracketed []
  | atom {rest : List Signal} (a : Atom) : Bracketed rest → Bracketed (a.signal :: rest)
  | span {inside rest : List Signal} (c : Construct) : Bracketed inside → Bracketed rest →
      Bracketed (.opens c :: (inside ++ .closes c :: rest))

/-- Whether the signal at one place opens a construct that the signal at another one closes. -/
structure Matches (signals : List Signal) (i j : Nat) : Prop where
  lt : i < j
  pair : ∃ c, signals[i]? = some (.opens c) ∧ signals[j]? = some (.closes c)
  inside : Bracketed ((signals.drop (i + 1)).take (j - (i + 1)))

/-- Whether each token spans itself, or the construct that it opens up to the token that closes it. -/
structure SpansMatch (ts : List Token) : Prop where
  single : ∀ (i : Nat) (hi : i < ts.length), (∀ c, ts[i].signal ≠ .opens c) →
    endIndex ts i = .ok (i + 1)
  construct : ∀ (i : Nat) (hi : i < ts.length) (c : Construct), ts[i].signal = .opens c →
    ∃ j, endIndex ts i = .ok (j + 1) ∧ ∀ k, Matches (ts.map Token.signal) i k ↔ k = j
  nested : ∀ i k a b, i < k → endIndex ts i = .ok a → endIndex ts k = .ok b → a ≤ k ∨ b ≤ a

/-- Values in lists in some nesting, and the same values with sublists written out. -/
inductive Nests : List Datum → List Datum → Prop
  | nil : Nests [] []
  | value {items entries : List Datum} (d : Datum) :
      Nests items entries → Nests (d :: items) (d :: entries)
  | sublist {inner rest innerEntries restEntries : List Datum} :
      Nests inner innerEntries → Nests rest restEntries →
      Nests (.list inner :: rest) (innerEntries ++ restEntries)

/-! ## The language -/

namespace Bracketed

variable {a b ss rest more : List Signal} {c d : Construct}

theorem atom_ne_opens (s : Atom) (c : Construct) : s.signal ≠ .opens c := by
  cases s <;> simp [Atom.signal]

theorem atom_ne_closes (s : Atom) (c : Construct) : s.signal ≠ .closes c := by
  cases s <;> simp [Atom.signal]

/-- Only one place in a list closes what is open around it. -/
theorem closes_unique (ha : Bracketed a) (hb : Bracketed b)
    (h : a ++ .closes c :: rest = b ++ .closes d :: more) : a = b := by
  induction ha generalizing b rest more c d with
  | nil =>
    cases hb with
    | nil => rfl
    | atom s => exact absurd (List.cons.inj h).1.symm (atom_ne_closes s c)
    | span => cases (List.cons.inj h).1
  | atom s _ ih =>
    cases hb with
    | nil => exact absurd (List.cons.inj h).1 (atom_ne_closes s d)
    | atom s' hb =>
      obtain ⟨hs, h⟩ := List.cons.inj h
      rw [hs, ih hb h]
    | span e => exact absurd (List.cons.inj h).1 (atom_ne_opens s e)
  | @span inside after e _ _ ihinside ihafter =>
    cases hb with
    | nil => cases (List.cons.inj h).1
    | atom s => exact absurd (List.cons.inj h).1.symm (atom_ne_opens s e)
    | @span inside' after' e' hinside hafter =>
      rw [List.cons_append, List.cons_append, List.append_assoc, List.append_assoc] at h
      obtain ⟨he, h⟩ := List.cons.inj h
      rw [List.cons_append, List.cons_append] at h
      -- The inner constructs are closed at one place, so the rests are the same too.
      obtain rfl := ihinside hinside h
      obtain ⟨-, h⟩ := List.cons.inj (List.append_cancel_left h)
      rw [Signal.opens.inj he, ihafter hafter h]

end Bracketed

namespace Matches

variable {ss : List Signal} {i j k : Nat}

/-- What follows the opening signal, cut at the closing one. -/
theorem drop_eq (h : Matches ss i j) : ∃ c rest,
    ss.drop (i + 1) = (ss.drop (i + 1)).take (j - (i + 1)) ++ .closes c :: rest := by
  obtain ⟨c, -, hclose⟩ := h.pair
  obtain ⟨hj, hclose⟩ := List.getElem?_eq_some_iff.mp hclose
  have hlt := h.lt
  have hrest : (ss.drop (i + 1)).drop (j - (i + 1)) = .closes c :: ss.drop (j + 1) := by
    rw [List.drop_drop, show i + 1 + (j - (i + 1)) = j by omega, List.drop_eq_getElem_cons hj, hclose]
  refine ⟨c, ss.drop (j + 1), ?_⟩
  rw [← hrest, List.take_append_drop]

/-- An opening signal is closed at one place only. -/
theorem unique (hj : Matches ss i j) (hk : Matches ss i k) : j = k := by
  obtain ⟨c, rest, hc⟩ := hj.drop_eq
  obtain ⟨d, more, hd⟩ := hk.drop_eq
  have h := congrArg List.length (Bracketed.closes_unique hj.inside hk.inside (hc.symm.trans hd))
  have hlength {n : Nat} (h : Matches ss i n) : n < ss.length := by
    obtain ⟨c, -, hclose⟩ := h.pair
    exact (List.getElem?_eq_some_iff.mp hclose).1
  have hltj := hlength hj
  have hltk := hlength hk
  have hij := hj.lt
  have hik := hk.lt
  rw [List.length_take, List.length_take, List.length_drop] at h
  omega

/-- The construct that a list starts with. -/
theorem span {inside : List Signal} (c : Construct) (rest : List Signal) (h : Bracketed inside) :
    Matches (.opens c :: (inside ++ .closes c :: rest)) 0 (inside.length + 1) := by
  refine ⟨by omega, ⟨c, rfl, ?_⟩, ?_⟩
  · rw [List.getElem?_cons_succ, List.getElem?_append_right (Nat.le_refl _), Nat.sub_self]
    rfl
  · rw [List.drop_succ_cons, List.drop_zero, Nat.add_sub_cancel, List.take_left]
    exact h

/-- Signals around it do not change what a construct is. -/
theorem around (before after : List Signal) (h : Matches ss i j) :
    Matches (before ++ (ss ++ after)) (before.length + i) (before.length + j) := by
  obtain ⟨c, hopen, hclose⟩ := h.pair
  have hlt := h.lt
  have hget {n : Nat} {s : Signal} (h : ss[n]? = some s) :
      (before ++ (ss ++ after))[before.length + n]? = some s := by
    rw [List.getElem?_append_right (by omega), Nat.add_sub_cancel_left,
      List.getElem?_append_left (List.getElem?_eq_some_iff.mp h).1, h]
  refine ⟨by omega, ⟨c, hget hopen, hget hclose⟩, ?_⟩
  have hj : j < ss.length := (List.getElem?_eq_some_iff.mp hclose).1
  have hdrop : (before ++ (ss ++ after)).drop (before.length + i + 1) =
      ss.drop (i + 1) ++ after := by
    rw [Nat.add_assoc, ← List.drop_drop, List.drop_left, List.drop_append_of_le_length (by omega)]
  rw [hdrop, show before.length + j - (before.length + i + 1) = j - (i + 1) by omega,
    List.take_append_of_le_length (by rw [List.length_drop]; omega)]
  exact h.inside

end Matches

/-- In a well-bracketed list every signal that opens a construct is matched. -/
theorem Bracketed.exists_matches {ss : List Signal} (h : Bracketed ss) {k : Nat} {c : Construct}
    (hk : ss[k]? = some (.opens c)) : ∃ j, j < ss.length ∧ Matches ss k j := by
  induction h generalizing k with
  | nil => simp at hk
  | @atom rest s _ ih =>
    cases k with
    | zero => exact absurd (Option.some.inj hk) (atom_ne_opens s c)
    | succ k =>
      obtain ⟨j, hj, hmatch⟩ := ih hk
      refine ⟨1 + j, by rw [List.length_cons]; omega, ?_⟩
      have := hmatch.around [s.signal] []
      rwa [List.append_nil, List.length_singleton, Nat.add_comm 1 k] at this
  | @span inside rest d hinside _ ihinside ihrest =>
    have hlength : (Signal.opens d :: (inside ++ .closes d :: rest)).length =
        inside.length + rest.length + 2 := by
      rw [List.length_cons, List.length_append, List.length_cons]
      omega
    cases k with
    | zero => exact ⟨inside.length + 1, by omega, .span d rest hinside⟩
    | succ k =>
      rw [List.getElem?_cons_succ] at hk
      by_cases hin : k < inside.length
      · -- Inside of the construct.
        rw [List.getElem?_append_left hin] at hk
        obtain ⟨j, hj, hmatch⟩ := ihinside hk
        refine ⟨1 + j, by omega, ?_⟩
        have := hmatch.around [.opens d] (.closes d :: rest)
        rwa [List.length_singleton, Nat.add_comm 1 k] at this
      · -- Behind it, or the signal that closes it, which opens nothing.
        rw [List.getElem?_append_right (by omega)] at hk
        obtain ⟨m, hm⟩ : ∃ m, k = inside.length + m := ⟨k - inside.length, by omega⟩
        rw [hm, Nat.add_sub_cancel_left] at hk
        cases m with
        | zero => cases Option.some.inj hk
        | succ m =>
          obtain ⟨j, hj, hmatch⟩ := ihrest hk
          have := hmatch.around (.opens d :: (inside ++ [.closes d])) []
          simp only [List.length_cons, List.length_append, List.length_nil, List.append_nil,
            List.cons_append, List.append_assoc, List.nil_append] at this
          refine ⟨_, ?_, by rwa [hm, show inside.length + (m + 1) + 1 = inside.length + (0 + 1) + 1 + m by omega]⟩
          omega

/-- A construct that begins inside of another one ends inside of it. -/
theorem Matches.nested {ss : List Signal} {i j k m : Nat} (h : Matches ss i j) (hk : Matches ss k m)
    (hik : i < k) : j < k ∨ m < j := by
  obtain ⟨c, -, hclose⟩ := h.pair
  obtain ⟨d, hopen, -⟩ := hk.pair
  have hij := h.lt
  obtain ⟨hj, -⟩ := List.getElem?_eq_some_iff.mp hclose
  rcases Nat.lt_trichotomy k j with hkj | rfl | hjk
  · right
    obtain ⟨n, rfl⟩ : ∃ n, k = i + 1 + n := ⟨k - (i + 1), by omega⟩
    have hinside : ((ss.drop (i + 1)).take (j - (i + 1)))[n]? = some (.opens d) := by
      rw [List.getElem?_take_of_lt (by omega), List.getElem?_drop, hopen]
    obtain ⟨l, hl, hmatch⟩ := h.inside.exists_matches hinside
    rw [List.length_take, List.length_drop] at hl
    have := hmatch.around (ss.take (i + 1)) ((ss.drop (i + 1)).drop (j - (i + 1)))
    rw [List.take_append_drop, List.take_append_drop, List.length_take_of_le (by omega)] at this
    rw [hk.unique this]
    omega
  · rw [hopen] at hclose
    cases hclose
  · exact .inl hjk

/-! ## Forests are the well-bracketed lists -/

namespace Node

mutual

theorem bracketed_entries {rest : List Signal} (hrest : Bracketed rest) : ∀ n : Node,
    Bracketed (n.entries.map (fun e => e.token.signal) ++ rest)
  | .leaf atom e => .atom atom hrest
  | .span c opening parts closing => by
    have hparts := bracketed_entriesAll parts
    rw [entries, List.map_cons, List.map_append, List.map_singleton, List.cons_append,
      List.append_assoc]
    exact .span c hparts hrest

theorem bracketed_entriesAll : ∀ forest : List Node,
    Bracketed ((entriesAll forest).map fun e => e.token.signal)
  | [] => .nil
  | n :: rest => by
    rw [entriesAll, List.map_append]
    exact bracketed_entries (bracketed_entriesAll rest) n

end

end Node

/-- A well-bracketed list of entries is a forest. -/
theorem Bracketed.exists_forest {ss : List Signal} (h : Bracketed ss) {es : List Entry}
    (hes : (es.map fun e => e.token.signal) = ss) : ∃ forest, es = entriesAll forest := by
  induction h generalizing es with
  | nil => exact ⟨[], List.map_eq_nil_iff.mp hes⟩
  | atom s _ ih =>
    obtain ⟨e, rest, rfl, hs, hrest⟩ := List.map_eq_cons_iff.mp hes
    obtain ⟨forest, rfl⟩ := ih hrest
    refine ⟨.leaf s e :: forest, ?_⟩
    rw [entriesAll, Node.entries, ← hs, Entry.withSignal_self, List.singleton_append]
  | span c _ _ ihinside ihrest =>
    obtain ⟨opening, behind, rfl, hopens, hbehind⟩ := List.map_eq_cons_iff.mp hes
    obtain ⟨inside, after, rfl, hinside, hafter⟩ := List.map_eq_append_iff.mp hbehind
    obtain ⟨closing, rest, rfl, hcloses, hrest⟩ := List.map_eq_cons_iff.mp hafter
    obtain ⟨parts, rfl⟩ := ihinside hinside
    obtain ⟨forest, rfl⟩ := ihrest hrest
    refine ⟨.span c opening parts closing :: forest, ?_⟩
    rw [entriesAll, Node.entries, ← hopens, ← hcloses, Entry.withSignal_self, Entry.withSignal_self,
      List.cons_append, List.append_assoc, List.singleton_append]

/-- **The reader accepts the well-bracketed lists and no others.** -/
theorem Entry.pair_ok_iff_bracketed {es : List Entry} :
    (∃ ts, pair 0 [] [] es = .ok ts) ↔ Bracketed (es.map fun e => e.token.signal) := by
  constructor
  · rintro ⟨ts, h⟩
    obtain ⟨forest, rfl, -⟩ := pair_ok.mp h
    exact Node.bracketed_entriesAll forest
  · intro h
    obtain ⟨forest, rfl⟩ := h.exists_forest rfl
    exact ⟨_, pair_ok.mpr ⟨forest, rfl, rfl⟩⟩

/-! ## Spans -/

namespace Node

mutual

theorem map_tokens {α : Type} (f : Token → α)
    (hf : ∀ (e : Entry) (c : Construct) (n : Nat), e.token.signal = .opens c →
      f (e.withCount n) = f e.token) :
    ∀ n : Node, n.tokens.map f = n.entries.map fun e => f e.token
  | .leaf _ _ => rfl
  | .span c opening parts closing => by
    rw [tokens, entries, List.map_cons, List.map_cons, List.map_append, List.map_append,
      map_tokensAll f hf parts, openToken, hf _ c _ rfl]
    rfl

/-- What does not depend on the counts of constructs is the same for the tokens of a forest as for its
entries. -/
theorem map_tokensAll {α : Type} (f : Token → α)
    (hf : ∀ (e : Entry) (c : Construct) (n : Nat), e.token.signal = .opens c →
      f (e.withCount n) = f e.token) :
    ∀ forest : List Node, (tokensAll forest).map f = (entriesAll forest).map fun e => f e.token
  | [] => rfl
  | n :: rest => by
    rw [tokensAll, entriesAll, List.map_append, List.map_append, map_tokens f hf n,
      map_tokensAll f hf rest]

end

mutual

theorem derived_of_entries : ∀ n : Node, (∀ e ∈ n.entries, e.counted = false) → n.Derived
  | .leaf _ _, _ => trivial
  | .span c opening parts _, h => by
    have hopening := h (opening.withSignal (.opens c)) (List.mem_cons_self ..)
    have hparts := derivedAll_of_entries parts fun e he =>
      h e (List.mem_cons_of_mem _ (List.mem_append_left _ he))
    exact ⟨hopening, hparts⟩

/-- A forest whose entries give no counts leaves them all to the reader. -/
theorem derivedAll_of_entries : ∀ forest : List Node,
    (∀ e ∈ entriesAll forest, e.counted = false) → DerivedAll forest
  | [], _ => trivial
  | n :: rest, h =>
    ⟨derived_of_entries n fun e he => h e (List.mem_append_left _ he),
      derivedAll_of_entries rest fun e he => h e (List.mem_append_right _ he)⟩

end

/-- Lists of tokens that start with a node, or with the token that closes the construct around it. -/
inductive Starts : List Token → Prop
  | node (n : Node) (rest : List Token) : n.Derived → Starts (n.tokens ++ rest)
  | close (c : Construct) (closing : Entry) (rest : List Token) : Starts (closeToken c closing :: rest)

theorem Starts.append {ts : List Token} (more : List Token) (h : Starts ts) : Starts (ts ++ more) := by
  cases h with
  | node n rest hn =>
    rw [List.append_assoc]
    exact .node n (rest ++ more) hn
  | close c closing rest => exact .close c closing (rest ++ more)

mutual

theorem starts_drop_tokens : ∀ (n : Node) (i : Nat), n.Derived → i < n.size →
    Starts (n.tokens.drop i)
  | n, 0, h, _ => by
    have := Starts.node n [] h
    rwa [List.append_nil] at this
  | .leaf _ _, i + 1, _, hi => absurd hi (by simp [size])
  | .span c opening parts closing, i + 1, h, hi => by
    rw [size] at hi
    rw [tokens, List.drop_succ_cons]
    by_cases hin : i < sizeAll parts
    · rw [List.drop_append_of_le_length (by rw [length_tokensAll]; omega)]
      exact (starts_drop_tokensAll parts i h.2 hin).append _
    · have hi : i = (tokensAll parts).length := by rw [length_tokensAll]; omega
      rw [hi, List.drop_left]
      exact .close c closing []

/-- At every place of a forest there starts a node, or a construct ends. -/
theorem starts_drop_tokensAll : ∀ (forest : List Node) (i : Nat), DerivedAll forest →
    i < sizeAll forest → Starts ((tokensAll forest).drop i)
  | [], _, _, hi => absurd hi (Nat.not_lt_zero _)
  | n :: rest, i, h, hi => by
    rw [sizeAll] at hi
    rw [tokensAll]
    by_cases hin : i < n.size
    · rw [List.drop_append_of_le_length (by rw [length_tokens]; omega)]
      exact (starts_drop_tokens n i h.1 hin).append _
    · obtain ⟨m, rfl⟩ : ∃ m, i = n.size + m := ⟨i - n.size, by omega⟩
      rw [← List.drop_drop, ← length_tokens, List.drop_left]
      exact starts_drop_tokensAll rest m h.2 (by omega)

end

end Node

section

variable {ts : List Token} {i k a b : Nat}

theorem lt_of_endIndex (h : endIndex ts i = .ok a) : i < ts.length := by
  by_contra hi
  rw [endIndex, List.drop_eq_nil_of_le (by omega)] at h
  cases h

theorem endIndex_of_spanLength {span : SpanLength (ts.drop i)} (h : spanLength (ts.drop i) = .ok span) :
    endIndex ts i = .ok (i + span.1) := by
  rw [endIndex, h]
  rfl

/-- A token that opens nothing and counts itself alone spans itself. -/
theorem endIndex_single (hi : i < ts.length) (hcount : ts[i].tokenCount = some 1)
    (hopens : ∀ c, ts[i].signal ≠ .opens c) : endIndex ts i = .ok (i + 1) := by
  have hends : ts[i].mayEndWith ts[i] = true := by
    rw [Token.mayEndWith]
    split
    · rename_i c hc
      exact absurd hc (hopens c)
    · rfl
  have hspan : ∃ span, spanLength (ts.drop i) = .ok span ∧ span.1 = 1 := by
    rw [List.drop_eq_getElem_cons hi]
    exact spanLength_of_count (n := 1) hcount Nat.one_pos rfl hends
  obtain ⟨span, hspan, hlength⟩ := hspan
  rw [endIndex_of_spanLength hspan, hlength]

/-- A construct whose count is derived spans up to the token that closes it. -/
theorem endIndex_construct {c : Construct} (hi : i < ts.length) (hopens : ts[i].signal = .opens c)
    (h : Node.Starts (ts.drop i)) :
    ∃ j, endIndex ts i = .ok (j + 1) ∧ Matches (ts.map Token.signal) i j := by
  have hsplit := (List.take_append_drop i ts).symm
  have hhead : (ts.drop i).head? = some ts[i] := by
    rw [List.drop_eq_getElem_cons hi, List.head?_cons]
  suffices hj : ∃ j, (∃ span, spanLength (ts.drop i) = .ok span ∧ i + span.1 = j + 1) ∧
      Matches (ts.map Token.signal) i j by
    obtain ⟨j, ⟨span, hspan, hlength⟩, hmatch⟩ := hj
    exact ⟨j, by rw [endIndex_of_spanLength hspan, hlength], hmatch⟩
  -- What stands here is a node, since a token that closes something opens nothing.
  generalize ts.drop i = here at h hhead hsplit
  cases h with
  | close d closing rest =>
    rw [← Option.some.inj hhead, Node.signal_closeToken] at hopens
    cases hopens
  | node n rest hn =>
    cases n with
    | leaf atom e =>
      rw [← Option.some.inj hhead] at hopens
      exact absurd hopens (Bracketed.atom_ne_opens atom c)
    | span d opening parts closing =>
      rw [← Option.some.inj hhead, Node.signal_openToken] at hopens
      obtain rfl := Signal.opens.inj hopens
      have hpasses : Node.Passes (fun _ => False) (.span d opening parts closing) rest :=
        Node.passes_of_derived hn.1 rest
      obtain ⟨fault, -, hfalse⟩ | ⟨span, hspan, hlength⟩ := hpasses
      · exact hfalse.elim
      have hparts : Bracketed ((tokensAll parts).map Token.signal) := by
        rw [Node.map_tokensAll _ fun e c n _ => Entry.signal_withCount e n]
        exact Node.bracketed_entriesAll parts
      have hmatch := (Matches.span d (rest.map Token.signal) hparts).around
        ((ts.take i).map Token.signal) []
      rw [List.length_map, List.length_map, List.length_take_of_le (by omega), Nat.add_zero,
        List.append_nil] at hmatch
      refine ⟨i + ((tokensAll parts).length + 1), ⟨span, hspan, ?_⟩, ?_⟩
      · rw [hlength, Node.size, Node.length_tokensAll]
        omega
      · rw [hsplit]
        simpa [Node.tokens] using hmatch

end

/-- The count of a token that opens nothing. -/
def Token.singleCount (t : Token) : Option Int :=
  match t.signal with
  | .opens _ => some 1
  | _ => t.tokenCount

namespace Node

variable {forest : List Node} {i : Nat}

/-- Where nothing opens, the span is one token. -/
theorem endIndex_of_not_opens (hones : ∀ e ∈ entriesAll forest, e.token.tokenCount = some 1)
    (hi : i < (tokensAll forest).length) (hopens : ∀ c, (tokensAll forest)[i].signal ≠ .opens c) :
    endIndex (tokensAll forest) i = .ok (i + 1) := by
  refine endIndex_single hi ?_ hopens
  -- The counts of tokens that open nothing are those of the entries.
  have hmem := List.mem_map_of_mem (f := Token.singleCount) (List.getElem_mem hi)
  rw [Node.map_tokensAll _ fun e c n hc => by simp [Token.singleCount, hc]] at hmem
  obtain ⟨e, he, heq⟩ := List.mem_map.mp hmem
  have hone : e.token.singleCount = some 1 := by
    rw [Token.singleCount]
    split
    · rfl
    · exact hones e he
  rw [hone] at heq
  rw [heq, Token.singleCount]
  split
  · rename_i c hc
    exact absurd hc (hopens c)
  · rfl

/-- Where a construct opens, the span goes up to the token that matches. -/
theorem endIndex_of_opens (hderived : DerivedAll forest) (hi : i < (tokensAll forest).length)
    {c : Construct} (hopens : (tokensAll forest)[i].signal = .opens c) :
    ∃ j, endIndex (tokensAll forest) i = .ok (j + 1) ∧
      Matches ((tokensAll forest).map Token.signal) i j :=
  endIndex_construct hi hopens
    (starts_drop_tokensAll forest i hderived (by rwa [length_tokensAll] at hi))

/-- **In a forest whose counts are all left to the reader, they lead to the tokens that match.** -/
theorem spansMatch (hderived : DerivedAll forest)
    (hones : ∀ e ∈ entriesAll forest, e.token.tokenCount = some 1) :
    SpansMatch (tokensAll forest) := by
  refine ⟨fun i hi => endIndex_of_not_opens hones hi, fun i hi c hopens => ?_,
    fun i k a b hik ha hb => ?_⟩
  · obtain ⟨j, hj, hmatch⟩ := endIndex_of_opens hderived hi hopens
    refine ⟨j, hj, fun k => ⟨fun hk => hk.unique hmatch, ?_⟩⟩
    rintro rfl
    exact hmatch
  · have hi := lt_of_endIndex ha
    have hk := lt_of_endIndex hb
    by_cases hopens : ∃ c, (tokensAll forest)[i].signal = .opens c
    · obtain ⟨c, hopens⟩ := hopens
      obtain ⟨j, hj, hmatch⟩ := endIndex_of_opens hderived hi hopens
      obtain rfl := Except.ok.inj (ha.symm.trans hj)
      by_cases hkopens : ∃ d, (tokensAll forest)[k].signal = .opens d
      · -- Two constructs: matching tokens do not cross.
        obtain ⟨d, hkopens⟩ := hkopens
        obtain ⟨m, hm, hkmatch⟩ := endIndex_of_opens hderived hk hkopens
        obtain rfl := Except.ok.inj (hb.symm.trans hm)
        have := hmatch.nested hkmatch hik
        omega
      · have hb' := endIndex_of_not_opens hones hk fun d hd => hkopens ⟨d, hd⟩
        obtain rfl := Except.ok.inj (hb.symm.trans hb')
        omega
    · have ha' := endIndex_of_not_opens hones hi fun c hc => hopens ⟨c, hc⟩
      obtain rfl := Except.ok.inj (ha.symm.trans ha')
      exact .inl hik

end Node

/-! ## Lists of a document -/

/-- An item that gives no count is an entry of one token. -/
theorem Entry.tokenCount_ofDatum {index : Nat} {d : Datum} {e : Entry} (h : ofDatum index d = .ok e)
    (hcounted : e.counted = false) : e.token.tokenCount = some 1 := by
  rw [ofDatum] at h
  obtain ⟨given, -, h⟩ := except_bind_ok h
  obtain ⟨token, htoken, h⟩ := except_bind_ok h
  obtain rfl := Except.ok.inj h
  have hnone : given.value? .tokenCount = none := by simpa using hcounted
  rw [Given.token] at htoken
  split at htoken
  · -- Of the attributes that a token is made of, only the count is looked at.
    obtain ⟨signal, -, htoken⟩ := except_bind_ok htoken
    obtain ⟨name, -, htoken⟩ := except_bind_ok htoken
    obtain ⟨id, -, htoken⟩ := except_bind_ok htoken
    obtain ⟨version, -, htoken⟩ := except_bind_ok htoken
    obtain ⟨deprecated, -, htoken⟩ := except_bind_ok htoken
    obtain ⟨offset, -, htoken⟩ := except_bind_ok htoken
    obtain ⟨encodedLength, -, htoken⟩ := except_bind_ok htoken
    obtain ⟨arrayLength, -, htoken⟩ := except_bind_ok htoken
    obtain ⟨tokenCount, hcount, htoken⟩ := except_bind_ok htoken
    obtain ⟨encoding, -, htoken⟩ := except_bind_ok htoken
    obtain rfl := Except.ok.inj htoken
    rw [Given.number, hnone] at hcount
    exact (Except.ok.inj hcount).symm
  · cases htoken

theorem Entry.tokenCount_listOf {index : Nat} {leaves : List Datum.Leaf} {es : List Entry}
    (h : listOf index leaves = .ok es) (hcounts : ∀ e ∈ es, e.counted = false) :
    ∀ e ∈ es, e.token.tokenCount = some 1 := by
  induction leaves generalizing index es with
  | nil =>
    obtain rfl := Except.ok.inj h
    simp
  | cons leaf rest ih =>
    cases leaf with
    | none => cases h
    | some d =>
      rw [listOf] at h
      obtain ⟨e, he, h⟩ := except_bind_ok h
      obtain ⟨es, hes, h⟩ := except_bind_ok h
      obtain rfl := Except.ok.inj h
      refine List.forall_mem_cons.mpr ⟨?_, ?_⟩
      · exact tokenCount_ofDatum he (hcounts e (List.mem_cons_self ..))
      · exact ih hes fun e he => hcounts e (List.mem_cons_of_mem _ he)

/-- What is found in two lists one after the other. -/
theorem Datum.leavesOf_append (linked : Nat → List Leaf) (a b : List Datum) :
    leavesOf linked (a ++ b) =
      if (leavesOf linked a).any Option.isNone then leavesOf linked a
      else leavesOf linked a ++ leavesOf linked b := by
  induction a with
  | nil => rfl
  | cons d rest ih =>
    rw [List.cons_append, leavesOf, leavesOf, ih]
    by_cases hd : (leavesWith linked d).any Option.isNone
    · simp [hd]
    · by_cases hrest : (leavesOf linked rest).any Option.isNone <;> simp [hd, hrest]

/-- Sublists do not change what is found in a list. -/
theorem Nests.leavesOf_eq {items entries : List Datum} (linked : Nat → List Datum.Leaf)
    (h : Nests items entries) : Datum.leavesOf linked items = Datum.leavesOf linked entries := by
  induction h with
  | nil => rfl
  | value d _ ih => rw [Datum.leavesOf, Datum.leavesOf, ih]
  | sublist _ _ ihinner ihrest =>
    rw [Datum.leavesOf_append, Datum.leavesOf, Datum.leavesWith, ihinner, ihrest]

namespace Token

/-- The tokens of a list, which may stand in a knot. -/
theorem listOfDatum_opened {d : Datum} {items : List Datum} (h : d.opened = .list items) :
    listOfDatum d = Entry.listOf 0 (Datum.leaves items) >>= Entry.pair 0 [] [] := by
  rw [listOfDatum, Datum.isGiven, Datum.partsOf, Datum.parts?, h]
  cases items <;> rfl

/-- **Brackets and spans.** A list whose items all parse and give no counts is accepted exactly if its
signals are well bracketed. Its tokens are then those of the items apart from the counts, each of them
spans itself or the construct up to the token that matches, and two spans are nested or apart. The same
items in lists in another nesting give the same tokens, or the same fault. -/
theorem listOfDatum_brackets {d : Datum} {items : List Datum} {es : List Entry}
    (hlist : d.opened = .list items) (hes : Entry.listOf 0 (Datum.leaves items) = .ok es)
    (hcounts : ∀ e ∈ es, e.counted = false) :
    ((∃ ts, listOfDatum d = .ok ts) ↔ Bracketed (es.map fun e => e.token.signal)) ∧
      (∀ ts, listOfDatum d = .ok ts →
        ts.map uncounted = (es.map fun e => e.token.uncounted) ∧ SpansMatch ts) ∧
      ∀ entries other others, Nests items entries → other.opened = .list others →
        Nests others entries → listOfDatum other = listOfDatum d := by
  have hpair : listOfDatum d = Entry.pair 0 [] [] es := by
    rw [listOfDatum_opened hlist, hes]
    rfl
  refine ⟨?_, fun ts hts => ?_, fun entries other others hitems hother hothers => ?_⟩
  · rw [hpair]
    exact Entry.pair_ok_iff_bracketed
  · rw [hpair] at hts
    obtain ⟨forest, rfl, rfl⟩ := Entry.pair_ok.mp hts
    constructor
    · refine Node.map_tokensAll _ (fun e c n _ => ?_) forest
      rw [Entry.withCount]
      split <;> rfl
    · exact Node.spansMatch (Node.derivedAll_of_entries forest hcounts)
        (Entry.tokenCount_listOf hes hcounts)
  · rw [listOfDatum_opened hother, listOfDatum_opened hlist, Datum.leaves, Datum.leaves,
      hitems.leavesOf_eq, hothers.leavesOf_eq]

end Token

/-- The items of a field with those of its type in a list of their own, as where a document takes the
type over by an alias. -/
def aliasItems : List Datum :=
  [.item (.opens .field) "side" none none none,
    .list [.item (.opens .enumeration) "Side" none none none, .item .validValue "Buy" none none none,
      .item (.closes .enumeration) "Side" none none none],
    .item (.closes .field) "side" none none none]

/-- The entries of a field and its type. -/
def aliasEntries : List Entry :=
  [⟨{ signal := .opens .field, name := "side" }, false⟩,
    ⟨{ signal := .opens .enumeration, name := "Side" }, false⟩,
    ⟨{ signal := .validValue, name := "Buy" }, false⟩,
    ⟨{ signal := .closes .enumeration, name := "Side" }, false⟩,
    ⟨{ signal := .closes .field, name := "side" }, false⟩]

theorem listOf_aliasItems : Entry.listOf 0 (Datum.leaves aliasItems) = .ok aliasEntries := by
  have hleaves : Datum.leaves aliasItems =
      ([.item (.opens .field) "side" none none none,
        .item (.opens .enumeration) "Side" none none none, .item .validValue "Buy" none none none,
        .item (.closes .enumeration) "Side" none none none,
        .item (.closes .field) "side" none none none] : List Datum).map some := rfl
  rw [hleaves]
  simp only [List.map_cons, List.map_nil, Entry.listOf, Entry.ofDatum_item]
  rfl

/-- The list is accepted, its spans match, and it has the same tokens as the one without a sublist. -/
theorem aliasItems_brackets :
    Entry.listOf 0 (Datum.leaves aliasItems) = .ok aliasEntries ∧
      (∀ e ∈ aliasEntries, e.counted = false) ∧
      ∃ ts, Token.listOfDatum (.list aliasItems) = .ok ts ∧ SpansMatch ts ∧
        Token.listOfDatum (.list [.list aliasItems]) = .ok ts := by
  have hcounts : ∀ e ∈ aliasEntries, e.counted = false := by simp [aliasEntries]
  obtain ⟨hiff, hspans, hnests⟩ :=
    @Token.listOfDatum_brackets (.list aliasItems) _ _ rfl listOf_aliasItems hcounts
  have hvalue : Bracketed [.validValue] := .atom .validValue .nil
  have htype : Bracketed [.opens .enumeration, .validValue, .closes .enumeration] :=
    .span .enumeration hvalue .nil
  have hbracketed : Bracketed (aliasEntries.map fun e => e.token.signal) := .span .field htype .nil
  obtain ⟨ts, hts⟩ := hiff.mpr hbracketed
  have hself : Nests aliasItems aliasItems := .value _ (.value _ (.value _ .nil))
  have hwrapped : Nests [.list aliasItems] aliasItems := by
    have := Nests.sublist hself .nil
    rwa [List.append_nil] at this
  exact ⟨listOf_aliasItems, hcounts, ts, hts, (hspans ts hts).2,
    (hnests _ (.list [.list aliasItems]) _ hself rfl hwrapped).trans hts⟩

end SimpleBinary
