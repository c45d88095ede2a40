import SimpleBinary.Proofs.Block.Known
import SimpleBinary.Proofs.Forest.Uncounted
import SimpleBinary.Proofs.Token.Writing

/-!
Documents without counts.

A document gives a count under a key of the mapping of a token, in any of the forms of that key, or
in the mapping under `encoding` inside it. With all such keys left out, every mapping is still
accepted and stands for the same entry with its count left to the reader (`Entry.ofDatum_uncounted`),
so the list without them is the list of the same entries without counts
(`Entry.listOf_withoutCounts`).
-/

set_option autoImplicit false

namespace SimpleBinary

/-! ## Mappings without counts -/

namespace Datum

/-- Whether a key gives the count of a token. -/
def isCountKey : Datum → Bool
  | .text key => Attribute.ofKey? (Attribute.plainKey key) == some .tokenCount
  | _ => false

/-- The entries of a mapping that do not give a count. -/
def withoutCount (entries : List (Datum × Datum)) : List (Datum × Datum) :=
  entries.filter fun entry => !entry.1.isCountKey

/-- The mapping under the key `encoding` without a count. -/
def encodingUncounted (d : Datum) : Datum :=
  match d.entries? with
  | some entries => .map (withoutCount entries)
  | none => d

/-- The entries of a mapping and of that under the key `encoding` in it that do not give a count. -/
def entriesUncounted (entries : List (Datum × Datum)) : List (Datum × Datum) :=
  (withoutCount entries).map fun entry =>
    (entry.1, if Given.isEncodingKey entry.1 then entry.2.encodingUncounted else entry.2)

/-- The mapping of a token without a count. -/
def uncounted (d : Datum) : Datum :=
  match d.entries? with
  | some entries => .map (entriesUncounted entries)
  | none => d

/-- The mappings of a list, found in lists in any nesting, without counts. -/
def withoutCounts (items : List Datum) : List Datum :=
  (leaves items).filterMap (Option.map uncounted)

/-- In a list of mappings without counts, these are found one by one. -/
theorem leaves_mappings {found : List Leaf}
    (h : ∀ leaf ∈ found, ∃ d, leaf = some d ∧ d.entries?.isSome) :
    leaves (found.filterMap (Option.map uncounted)) = found.map (Option.map uncounted) := by
  induction found with
  | nil => rfl
  | cons leaf rest ih =>
    obtain ⟨d, rfl, hd⟩ := h _ (List.mem_cons_self ..)
    obtain ⟨entries, hentries⟩ := Option.isSome_iff_exists.mp hd
    have hrest := ih fun leaf hleaf => h leaf (List.mem_cons_of_mem _ hleaf)
    have hmap : d.uncounted = .map (entriesUncounted entries) := by rw [uncounted, hentries]
    rw [leaves] at hrest ⊢
    rw [List.filterMap_cons_some (Option.map_some ..), List.map_cons, Option.map_some, hmap, leavesOf]
    simp [leavesWith, hrest]

theorem isCountKey_encoding : isCountKey (.text (Text.ofString "encoding")) = false := by
  cbv

theorem find?_uncounted (entries : List (Datum × Datum)) :
    find? "encoding" (entriesUncounted entries) =
      (find? "encoding" entries).map encodingUncounted := by
  induction entries with
  | nil => rfl
  | cons entry rest ih =>
    obtain ⟨key, value⟩ := entry
    cases key with
    | text key =>
      by_cases hkey : key = Text.ofString "encoding"
      · simp [entriesUncounted, withoutCount, hkey, isCountKey_encoding, find?, Given.isEncodingKey]
      · by_cases hcount : isCountKey (.text key) <;>
          simpa [entriesUncounted, withoutCount, hkey, hcount, find?, Given.isEncodingKey] using ih
    | _ => simpa [entriesUncounted, withoutCount, isCountKey, find?, Given.isEncodingKey] using ih

end Datum

namespace Given

/-- The values without that of the count. -/
def uncounted (given : Given) : Given where
  value? a := if a = .tokenCount then none else given.value? a

theorem nothing_uncounted : nothing.uncounted = nothing := by
  ext1
  funext a
  simp [uncounted, nothing]

theorem uncounted_set (given : Given) (value : Datum) :
    (given.set .tokenCount value).uncounted = given.uncounted := by
  ext1
  funext a
  by_cases h : a = .tokenCount <;> simp [uncounted, set, h]

theorem set_uncounted (given : Given) {a : Attribute} (value : Datum) (h : a ≠ .tokenCount) :
    given.uncounted.set a value = (given.set a value).uncounted := by
  ext1
  funext b
  by_cases hb : b = a <;> simp_all [uncounted, set]

/-- Without the entries that give a count, all other values are the same. -/
theorem foldlM_withoutCount {index : Nat} {entries : List (Datum × Datum)} {start given : Given}
    (h : entries.foldlM (add index) start = .ok given) :
    (Datum.withoutCount entries).foldlM (add index) start.uncounted = .ok given.uncounted := by
  induction entries generalizing start with
  | nil =>
    cases h
    rfl
  | cons entry rest ih =>
    rw [List.foldlM_cons] at h
    obtain ⟨next, hadd, hrest⟩ := except_bind_ok h
    obtain ⟨key, value⟩ := entry
    cases key with
    | text key =>
      rw [add] at hadd
      cases hkey : Attribute.ofKey? (Attribute.plainKey key) with
      | none =>
        simp only [hkey] at hadd
        cases hadd
      | some a =>
        simp only [hkey] at hadd
        obtain rfl := Except.ok.inj hadd
        by_cases ha : a = .tokenCount
        · -- The entry is left out, and what it has set is forgotten.
          subst ha
          have hcount : Datum.isCountKey (.text key) = true := by simp [Datum.isCountKey, hkey]
          rw [Datum.withoutCount, List.filter_cons_of_neg (by simp [hcount]), ← Datum.withoutCount,
            ← uncounted_set start value]
          exact ih hrest
        · -- Any other entry is kept, and it does not matter for it whether a count was set.
          have hcount : Datum.isCountKey (.text key) = false := by
            simp [Datum.isCountKey, hkey, ha]
          rw [Datum.withoutCount, List.filter_cons_of_pos (by simp [hcount]), ← Datum.withoutCount,
            List.foldlM_cons, add]
          simp only [hkey]
          show List.foldlM (add index) (start.uncounted.set a value) _ = _
          rw [set_uncounted start value ha]
          exact ih hrest
    | _ => cases hadd

theorem value?_uncounted (given : Given) {a : Attribute} (h : a ≠ .tokenCount) :
    given.uncounted.value? a = given.value? a :=
  if_neg h

theorem number_uncounted (given : Given) {a : Attribute} (h : a ≠ .tokenCount)
    (default : Option Int) : given.uncounted.number a default = given.number a default := by
  rw [number, value?_uncounted given h, number]

theorem encoding_uncounted (given : Given) : given.uncounted.encoding = given.encoding := by
  simp [encoding, member, text, raw, value?_uncounted]

/-- Without the value of the count, a token is the same but for the count. -/
theorem token_uncounted {index : Nat} {given : Given} {token : Token}
    (h : given.token index = .ok token) : given.uncounted.token index = .ok token.uncounted := by
  rw [Given.token] at h ⊢
  rw [value?_uncounted given (by simp), value?_uncounted given (by simp)]
  split at h
  · obtain ⟨signal, hsignal, h⟩ := except_bind_ok h
    obtain ⟨name, hname, h⟩ := except_bind_ok h
    obtain ⟨id, hid, h⟩ := except_bind_ok h
    obtain ⟨version, hversion, h⟩ := except_bind_ok h
    obtain ⟨deprecated, hdeprecated, h⟩ := except_bind_ok h
    obtain ⟨offset, hoffset, h⟩ := except_bind_ok h
    obtain ⟨encodedLength, hlength, h⟩ := except_bind_ok h
    obtain ⟨arrayLength, harray, h⟩ := except_bind_ok h
    obtain ⟨count, -, h⟩ := except_bind_ok h
    obtain ⟨encoding, hencoding, h⟩ := except_bind_ok h
    obtain rfl := Except.ok.inj h
    have hcount : given.uncounted.number .tokenCount (some 1) = .ok (some 1) := rfl
    have hraw : given.uncounted.raw .referencedName = given.raw .referencedName := rfl
    simp [*, number_uncounted, encoding_uncounted]
    rfl
  · cases h

/-- The entries under the key `encoding`, without a count. -/
theorem innerEntries_uncounted {entries inner : List (Datum × Datum)}
    (h : innerEntries entries = .ok inner) :
    innerEntries (Datum.entriesUncounted entries) = .ok (Datum.withoutCount inner) := by
  have hfind' := Datum.find?_uncounted entries
  cases hfind : Datum.find? "encoding" entries with
  | none =>
    rw [hfind, Option.map_none] at hfind'
    rw [innerEntries, hfind] at h
    rw [innerEntries, hfind', ← Except.ok.inj h]
    rfl
  | some d =>
    rw [hfind, Option.map_some, Datum.encodingUncounted] at hfind'
    cases hd : d.entries? with
    | none =>
      -- What is no mapping is accepted only if it counts as nothing, and it is kept as it is.
      simp only [innerEntries, hfind, hd] at h
      simp only [hd] at hfind'
      split at h
      · cases h
      · rename_i hnone
        obtain rfl := Except.ok.inj h
        simp [innerEntries, hfind', hnone, Datum.withoutCount]
    | some found =>
      obtain rfl := Except.ok.inj ((innerEntries_of_entries? hfind hd).symm.trans h)
      rw [hd] at hfind'
      exact innerEntries_of_entries? hfind' rfl

theorem filter_uncounted (entries : List (Datum × Datum)) :
    (Datum.entriesUncounted entries).filter (fun entry => !isEncodingKey entry.1) =
      Datum.withoutCount (entries.filter fun entry => !isEncodingKey entry.1) := by
  induction entries with
  | nil => rfl
  | cons entry rest ih =>
    simp only [Datum.entriesUncounted, Datum.withoutCount] at ih ⊢
    by_cases hcount : entry.1.isCountKey <;> by_cases hencoding : isEncodingKey entry.1 <;>
      simp [hcount, hencoding, ih]

/-- Without its count, an item gives the values without that of the count. -/
theorem ofDatum_uncounted {index : Nat} {d : Datum} {given : Given}
    (h : ofDatum index d = .ok given) : ofDatum index d.uncounted = .ok given.uncounted := by
  rw [ofDatum] at h
  cases hentries : d.entries? with
  | none =>
    simp only [hentries] at h
    cases h
  | some entries =>
    simp only [hentries] at h
    obtain ⟨inner, hinner, h⟩ := except_bind_ok h
    have hwithout := foldlM_withoutCount h
    rw [Datum.withoutCount, List.filter_append, ← Datum.withoutCount, ← Datum.withoutCount,
      ← filter_uncounted, nothing_uncounted] at hwithout
    rw [Datum.uncounted, hentries]
    change (innerEntries (Datum.entriesUncounted entries) >>= _) = _
    rw [innerEntries_uncounted hinner]
    exact hwithout

end Given

namespace Entry

/-- Without its count, an item is the entry without a count. -/
theorem ofDatum_uncounted {index : Nat} {d : Datum} {e : Entry} (h : ofDatum index d = .ok e) :
    ofDatum index d.uncounted = .ok e.uncounted := by
  rw [ofDatum] at h ⊢
  obtain ⟨given, hgiven, h⟩ := except_bind_ok h
  obtain ⟨token, htoken, h⟩ := except_bind_ok h
  obtain rfl := Except.ok.inj h
  have hgiven' := Given.ofDatum_uncounted hgiven
  rw [hgiven']
  change (given.uncounted.token index >>= _) = _
  rw [Given.token_uncounted htoken]
  rfl

/-- Entries without counts. -/
theorem listOf_uncounted {index : Nat} {leaves : List Datum.Leaf} {es : List Entry}
    (h : listOf index leaves = .ok es) :
    listOf index (leaves.map (Option.map Datum.uncounted)) = .ok (es.map Entry.uncounted) := by
  induction leaves generalizing index es with
  | nil =>
    cases h
    rfl
  | cons leaf rest ih =>
    cases leaf with
    | none => cases h
    | some d =>
      rw [listOf] at h
      obtain ⟨e, he, h⟩ := except_bind_ok h
      obtain ⟨es, hes, h⟩ := except_bind_ok h
      obtain rfl := Except.ok.inj h
      rw [List.map_cons, Option.map_some, listOf, ofDatum_uncounted he, ih hes]
      rfl

/-- Only mappings are accepted. -/
theorem isMapping_of_listOf {index : Nat} {leaves : List Datum.Leaf} {es : List Entry}
    (h : listOf index leaves = .ok es) : ∀ leaf ∈ leaves, ∃ d, leaf = some d ∧ d.entries?.isSome := by
  induction leaves generalizing index es with
  | nil => simp
  | cons leaf rest ih =>
    cases leaf with
    | none => cases h
    | some d =>
      rw [listOf] at h
      obtain ⟨e, he, h⟩ := except_bind_ok h
      obtain ⟨es, hes, -⟩ := except_bind_ok h
      intro leaf hleaf
      rcases List.mem_cons.mp hleaf with rfl | hmem
      · rw [ofDatum] at he
        obtain ⟨given, hgiven, -⟩ := except_bind_ok he
        refine ⟨d, rfl, ?_⟩
        -- What is given is looked up in the entries, so a value without entries is refused.
        rw [Given.ofDatum] at hgiven
        cases hentries : d.entries? with
        | none =>
          rw [hentries] at hgiven
          cases hgiven
        | some => rfl
      · exact ih hes leaf hmem

/-- **A list without counts has the entries without counts.** -/
theorem listOf_withoutCounts {index : Nat} {items : List Datum} {es : List Entry}
    (h : listOf index (Datum.leaves items) = .ok es) :
    listOf index (Datum.leaves (Datum.withoutCounts items)) = .ok (es.map Entry.uncounted) := by
  rw [Datum.withoutCounts, Datum.leaves_mappings (isMapping_of_listOf h)]
  exact listOf_uncounted h

end Entry

theorem Token.listOfDatum_list (items : List Datum) :
    listOfDatum (.list items) = Entry.listOf 0 (Datum.leaves items) >>= Entry.pair 0 [] [] := by
  cases items <;> rfl

/-- The tokens of a list that makes up one node. -/
theorem Token.listOfDatum_node {items : List Datum} {n : Node}
    (h : Entry.listOf 0 (Datum.leaves items) = .ok n.entries) :
    listOfDatum (.list items) = .ok n.tokens := by
  rw [listOfDatum_list, h]
  exact Entry.pair_node n

end SimpleBinary
