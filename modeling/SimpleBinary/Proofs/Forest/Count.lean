import SimpleBinary.Proofs.Forest.Walk

/-!
Counts of a forest.

A count that the reader of a list derives leads to the end of its construct (`Node.Derived`). A count
that is given may be anything, and it is checked only where the walk passes over its construct, and only
for the kind of the token that it leads to; `Node.spans` lists these places. Either way the counts are
sound for the walk over the forest.
-/

set_option autoImplicit false

namespace SimpleBinary

open Node (openToken closeToken tokensAll sizeAll)

/-- A count that leads to a token that may be the last one is the length of the span. -/
theorem spanLength_of_count {token last : Token} {rest : List Token} {n : Nat}
    (hcount : token.tokenCount = some (n : Int)) (hpositive : 0 < n)
    (hlast : (token :: rest)[n - 1]? = some last) (hends : token.mayEndWith last = true) :
    ∃ span, spanLength (token :: rest) = .ok span ∧ span.1 = n := by
  obtain ⟨hinside, hget⟩ := List.getElem?_eq_some_iff.mp hlast
  rw [List.length_cons] at hinside
  have hfew : ¬ (n : Int) < 1 := by omega
  have hfar : ¬ (rest.length : Int) + 1 < n := by omega
  unfold spanLength
  simp only [hcount, hfew, hfar, dite_false, Int.toNat_natCast, List.get_eq_getElem, hget, hends,
    if_true]
  exact ⟨_, rfl, rfl⟩

/-- The length of a span is the count of its first token, and its last token may be the last one. -/
theorem count_of_spanLength {token : Token} {rest : List Token} {span : SpanLength (token :: rest)}
    (h : spanLength (token :: rest) = .ok span) :
    token.tokenCount = some (span.1 : Int) ∧
      ∃ last, (token :: rest)[span.1 - 1]? = some last ∧ token.mayEndWith last = true := by
  unfold spanLength at h
  cases hcount : token.tokenCount with
  | none => simp only [hcount, reduceCtorEq] at h
  | some count =>
    simp only [hcount] at h
    split at h
    · cases h
    · split at h
      · cases h
      · split at h
        · rename_i hends
          obtain rfl := Except.ok.inj h
          refine ⟨?_, _, List.getElem?_eq_getElem _, hends⟩
          rw [Int.toNat_of_nonneg (by omega)]
        · cases h

/-- Whether a fault is that tokens do not agree with each other. -/
def Fault.IsInconsistent (fault : Fault) : Prop :=
  ∃ cause, fault = .inconsistent cause

/-- A count that is there is refused with an inconsistency only. -/
theorem inconsistent_of_spanLength {token : Token} {rest : List Token} {fault : Fault}
    (hcount : token.tokenCount.isSome) (h : spanLength (token :: rest) = .error fault) :
    fault.IsInconsistent := by
  unfold spanLength at h
  obtain ⟨count, hcount⟩ := Option.isSome_iff_exists.mp hcount
  simp only [hcount] at h
  split at h
  · exact ⟨_, (Except.error.inj h).symm⟩
  · split at h
    · exact ⟨_, (Except.error.inj h).symm⟩
    · split at h
      · cases h
      · exact ⟨_, (Except.error.inj h).symm⟩

/-- A span is the same with more tokens after it. -/
theorem spanLength_append {ts : List Token} {span : SpanLength ts} (more : List Token)
    (h : spanLength ts = .ok span) :
    ∃ span', spanLength (ts ++ more) = .ok span' ∧ span'.1 = span.1 := by
  cases ts with
  | nil => cases h
  | cons token rest =>
    obtain ⟨hcount, last, hlast, hends⟩ := count_of_spanLength h
    have hlonger : (token :: (rest ++ more))[span.1 - 1]? = some last := by
      rw [← List.cons_append, List.getElem?_append_left (List.getElem?_eq_some_iff.mp hlast).1,
        hlast]
    exact spanLength_of_count hcount span.2.1 hlonger hends

namespace Node

/-! ## Derived counts -/

mutual

/-- Whether no construct of a node is given a count. -/
def Derived : Node → Prop
  | .leaf _ _ => True
  | .span _ opening parts _ => opening.counted = false ∧ DerivedAll parts

/-- Whether no construct of a forest is given a count. -/
def DerivedAll : List Node → Prop
  | [] => True
  | n :: rest => Derived n ∧ DerivedAll rest

end

/-- A derived count leads to the end of the construct. -/
theorem passes_of_derived {faults : Fault → Prop} {construct : Construct} {opening closing : Entry}
    {parts : List Node} (h : opening.counted = false) (after : List Token) :
    Passes faults (.span construct opening parts closing) after := by
  right
  rw [Walk.tokens_span_append]
  have hsize : (span construct opening parts closing).size - 1 = (tokensAll parts).length + 1 := by
    rw [size, length_tokensAll]
    rfl
  have hlast : (openToken construct opening parts ::
      (tokensAll parts ++ closeToken construct closing :: after))[
        (span construct opening parts closing).size - 1]? = some (closeToken construct closing) := by
    rw [hsize, List.getElem?_cons_succ, List.getElem?_append_right (Nat.le_refl _), Nat.sub_self]
    rfl
  refine spanLength_of_count ?_ (by simp [size]) hlast (by simp [Token.mayEndWith])
  simp [openToken, Entry.withCount, Entry.withSignal, h, size]

theorem passes_of_isComposite {faults : Fault → Prop} {n : Node} (hcomposite : n.isComposite = true)
    (h : n.Derived) (after : List Token) : Passes faults n after := by
  cases n with
  | leaf => cases hcomposite
  | span => exact passes_of_derived h.1 after

mutual

theorem sound_of_derived {faults : Fault → Prop} :
    ∀ (n : Node) (after : List Token), n.Derived → n.Sound faults after
  | .leaf _ _, _, _ => trivial
  | .span .message _ parts _, _, h => soundAll_of_derived parts _ h.2
  | .span .composite _ parts _, after, h => ⟨passes_of_derived h.1 after, soundAll_of_derived parts _ h.2⟩
  | .span .group _ parts _, after, h =>
    ⟨passes_of_derived h.1 after, soundGroup_of_derived parts _ after h.2⟩
  | .span .field .., after, h => passes_of_derived h.1 after
  | .span .enumeration .., after, h => passes_of_derived h.1 after
  | .span .choiceSet .., after, h => passes_of_derived h.1 after
  | .span .varData .., after, h => passes_of_derived h.1 after

theorem soundAll_of_derived {faults : Fault → Prop} :
    ∀ (forest : List Node) (after : List Token), DerivedAll forest → SoundAll faults forest after
  | [], _, _ => trivial
  | n :: rest, after, h => ⟨sound_of_derived n _ h.1, soundAll_of_derived rest after h.2⟩

theorem soundGroup_of_derived {faults : Fault → Prop} :
    ∀ (parts : List Node) (closing : Token) (after : List Token), DerivedAll parts →
      SoundGroup faults parts closing after
  | [], _, _, _ => trivial
  | _ :: members, _, _, h =>
    ⟨fun hcomposite => passes_of_isComposite hcomposite h.1 _, soundAll_of_derived members _ h.2⟩

end

/-! ## Given counts -/

mutual

/-- Where the constructs of a node that a walk passes over begin and end. The node begins at an index. -/
def spans (start : Nat) : Node → List (Nat × Nat)
  | .leaf _ _ => []
  | .span construct _ parts _ =>
    let whole := (start, start + sizeAll parts + 2)
    match construct with
    | .message => spansAll (start + 1) parts
    | .composite => whole :: spansAll (start + 1) parts
    | .group => whole :: spansGroup (start + 1) parts
    | _ => [whole]

/-- Where the constructs of a forest that a walk passes over begin and end. -/
def spansAll (start : Nat) : List Node → List (Nat × Nat)
  | [] => []
  | n :: rest => spans start n ++ spansAll (start + n.size) rest

/-- Where the constructs in a group that a walk passes over begin and end: the dimensions, and those of
the members. -/
def spansGroup (start : Nat) : List Node → List (Nat × Nat)
  | [] => []
  | dimensions :: members =>
    (if dimensions.isComposite then [(start, start + dimensions.size)] else []) ++
      spansAll (start + dimensions.size) members

end

/-- Whether a count that is not refused leads to the end of its construct, at each of some spans. -/
def LeadRight (ts : List Token) (spans : List (Nat × Nat)) : Prop :=
  ∀ span ∈ spans, ∀ stop, endIndex ts span.1 = .ok stop → stop = span.2

theorem leadRight_append {ts : List Token} {a b : List (Nat × Nat)} :
    LeadRight ts (a ++ b) ↔ LeadRight ts a ∧ LeadRight ts b := by
  simp only [LeadRight, List.mem_append, or_imp, forall_and]

theorem leadRight_cons {ts : List Token} {span : Nat × Nat} {spans : List (Nat × Nat)} :
    LeadRight ts (span :: spans) ↔ LeadRight ts [span] ∧ LeadRight ts spans :=
  leadRight_append (a := [span])

section

variable {all after more : List Token} {start : Nat}

theorem drop_add_of_append (front : List Token) (h : all.drop start = front ++ more) :
    all.drop (start + front.length) = more := by
  rw [← List.drop_drop, h, List.drop_left]

/-- The tokens inside of a construct are those behind its first one. -/
theorem drop_inside {construct : Construct} {opening closing : Entry} {parts : List Node}
    (h : all.drop start = (span construct opening parts closing).tokens ++ after ++ more) :
    all.drop (start + 1) = tokensAll parts ++ (closeToken construct closing :: after) ++ more := by
  rw [Walk.tokens_span_append, List.cons_append] at h
  exact drop_add_of_append [openToken construct opening parts] h

/-- A count that leads right is refused with an inconsistency, or leads to the end of the construct. -/
theorem passes_of_leadRight (hcounts : ∀ t ∈ all, t.tokenCount.isSome) {n : Node}
    (hn : n.tokens ≠ []) (hall : all.drop start = n.tokens ++ after ++ more)
    (h : LeadRight all [(start, start + n.size)]) :
    Passes Fault.IsInconsistent n after := by
  obtain ⟨token, rest, htokens⟩ := List.exists_cons_of_ne_nil hn
  cases hspan : spanLength (n.tokens ++ after) with
  | error fault =>
    refine .inl ⟨fault, hspan, ?_⟩
    have hmem : token ∈ all.drop start := by
      rw [hall, htokens]
      simp
    rw [htokens] at hspan
    exact inconsistent_of_spanLength (hcounts token (List.mem_of_mem_drop hmem)) hspan
  | ok span =>
    refine .inr ⟨span, hspan, ?_⟩
    obtain ⟨longer, hlonger, heq⟩ := spanLength_append more hspan
    have hend : endIndex all start = .ok (start + span.1) := by
      rw [endIndex, hall, hlonger, ← heq]
      rfl
    have := h _ (List.mem_singleton.mpr rfl) _ hend
    omega

end

mutual

theorem sound_of_leadRight {all : List Token} (hcounts : ∀ t ∈ all, t.tokenCount.isSome) :
    ∀ (n : Node) {start : Nat} {after more : List Token},
      all.drop start = n.tokens ++ after ++ more → LeadRight all (spans start n) →
      n.Sound Fault.IsInconsistent after
  | .leaf _ _, _, _, _, _, _ => trivial
  | .span .message opening parts closing, start, after, more, hall, h =>
    soundAll_of_leadRight hcounts parts (drop_inside hall) h
  | .span .composite opening parts closing, start, after, more, hall, h => by
    obtain ⟨hwhole, hparts⟩ := leadRight_cons.mp h
    have hinside : all.drop (start + 1) =
        tokensAll parts ++ [] ++ (closeToken .composite closing :: after ++ more) := by
      rw [drop_inside hall, List.append_nil, List.append_assoc]
    exact ⟨passes_of_leadRight hcounts (by simp [tokens]) hall hwhole,
      soundAll_of_leadRight hcounts parts hinside hparts⟩
  | .span .group opening parts closing, start, after, more, hall, h => by
    obtain ⟨hwhole, hparts⟩ := leadRight_cons.mp h
    exact ⟨passes_of_leadRight hcounts (by simp [tokens]) hall hwhole,
      soundGroup_of_leadRight hcounts parts (drop_inside hall) hparts⟩
  | .span .field .., start, after, more, hall, h =>
    passes_of_leadRight hcounts (by simp [tokens]) hall h
  | .span .enumeration .., start, after, more, hall, h =>
    passes_of_leadRight hcounts (by simp [tokens]) hall h
  | .span .choiceSet .., start, after, more, hall, h =>
    passes_of_leadRight hcounts (by simp [tokens]) hall h
  | .span .varData .., start, after, more, hall, h =>
    passes_of_leadRight hcounts (by simp [tokens]) hall h

theorem soundAll_of_leadRight {all : List Token} (hcounts : ∀ t ∈ all, t.tokenCount.isSome) :
    ∀ (forest : List Node) {start : Nat} {after more : List Token},
      all.drop start = tokensAll forest ++ after ++ more → LeadRight all (spansAll start forest) →
      SoundAll Fault.IsInconsistent forest after
  | [], _, _, _, _, _ => trivial
  | n :: rest, start, after, more, hall, h => by
    obtain ⟨hfirst, hrest⟩ := leadRight_append.mp h
    rw [tokensAll, List.append_assoc n.tokens, List.append_assoc n.tokens] at hall
    have hhere : all.drop start = n.tokens ++ (tokensAll rest ++ after) ++ more := by
      rw [hall, List.append_assoc n.tokens]
    have hbehind := drop_add_of_append _ hall
    rw [length_tokens] at hbehind
    exact ⟨sound_of_leadRight hcounts n hhere hfirst,
      soundAll_of_leadRight hcounts rest hbehind hrest⟩

theorem soundGroup_of_leadRight {all : List Token} (hcounts : ∀ t ∈ all, t.tokenCount.isSome) :
    ∀ (parts : List Node) {start : Nat} {closing : Token} {after more : List Token},
      all.drop start = tokensAll parts ++ (closing :: after) ++ more →
      LeadRight all (spansGroup start parts) →
      SoundGroup Fault.IsInconsistent parts closing after
  | [], _, _, _, _, _, _ => trivial
  | dimensions :: members, start, closing, after, more, hall, h => by
    obtain ⟨hfirst, hrest⟩ := leadRight_append.mp h
    rw [tokensAll, List.append_assoc dimensions.tokens, List.append_assoc dimensions.tokens] at hall
    have hhere : all.drop start =
        dimensions.tokens ++ (tokensAll members ++ closing :: after) ++ more := by
      rw [hall, List.append_assoc dimensions.tokens]
    have hbehind : all.drop (start + dimensions.size) =
        tokensAll members ++ [closing] ++ (after ++ more) := by
      rw [← length_tokens, drop_add_of_append _ hall]
      simp
    constructor
    · intro hcomposite
      rw [if_pos hcomposite] at hfirst
      exact passes_of_leadRight hcounts (by cases dimensions <;> simp [tokens]) hhere hfirst
    · exact soundAll_of_leadRight hcounts members hbehind hrest

end

end Node

/-- **Where all counts are derived, a walk is the walk over the forest.** -/
theorem Walk.tokens_of_derived {forest : List Node} (h : Node.DerivedAll forest) :
    tokens (tokensAll forest) = nodes forest := by
  have hrefines : Refines (fun _ => False) (tokens (tokensAll forest)) (nodes forest) := by
    have hsound : Node.SoundAll (fun _ => False) forest [] := Node.soundAll_of_derived forest [] h
    have hnodes := refines_nodes forest [] hsound
    rwa [List.append_nil, bind_tokens_nil] at hnodes
  funext w
  rcases hrefines w with heq | ⟨_, _, _, hfalse⟩
  · exact heq
  · exact hfalse.elim

theorem Walk.tokens_of_derived_node {n : Node} (h : n.Derived) : tokens n.tokens = node n := by
  have hall : Node.DerivedAll [n] := ⟨h, trivial⟩
  have hnodes := tokens_of_derived hall
  rw [tokensAll, tokensAll, List.append_nil, nodes, nodes] at hnodes
  exact hnodes.trans (bind_pure (node n))

end SimpleBinary
