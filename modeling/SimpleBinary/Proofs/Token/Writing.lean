import Mathlib
import SimpleBinary.Proofs.Results
import SimpleBinary.Token.Stream

/-!
Ways to write a token.

A token is given by the values of its attributes. How they are written is left open: an attribute may stand
in the mapping of the token or in the one under `encoding`, its key may be in any of its forms, and the keys
may be in any order. One way of writing leads to another by a few kinds of moves (`Writing.Move`), and none of
them changes which values there are under which plain keys (`Writing.Move.perm`). If no attribute is given
twice, this decides the token.

A key that is no attribute in any form is refused wherever it stands.
-/

set_option autoImplicit false

namespace SimpleBinary

/-! ## Unknown keys -/

/-- Whether a key is no attribute in any of its forms. -/
def Attribute.IsUnknown (key : Text) : Prop :=
  ∀ a : Attribute, plainKey key ≠ a.key

theorem Attribute.isUnknown_iff {key : Text} : IsUnknown key ↔ ofKey? (plainKey key) = none := by
  rw [ofKey?, List.find?_eq_none]
  constructor
  · intro h a _ hkey
    exact h a (eq_of_beq hkey).symm
  · intro h a heq
    exact h a (mem_all a) (by rw [heq, beq_self_eq_true])

/-! ## Values in any order -/

namespace Given

/-- The values of attributes that are set one after the other. -/
def setAll (given : Given) (values : List (Attribute × Datum)) : Given :=
  values.foldl (fun given value => given.set value.1 value.2) given

/-- Values of different attributes can be set in any order. -/
theorem setAll_perm {values values' : List (Attribute × Datum)} (h : values.Perm values')
    (hnodup : (values.map Prod.fst).Nodup) (given : Given) : given.setAll values = given.setAll values' := by
  induction h generalizing given with
  | nil => rfl
  | cons value _ ih => exact ih (List.nodup_cons.mp hnodup).2 (given.set value.1 value.2)
  | swap first second rest =>
    have hne : second.1 ≠ first.1 := by
      intro heq
      rw [List.map_cons, List.map_cons, List.nodup_cons, heq] at hnodup
      exact hnodup.1 (List.mem_cons_self ..)
    exact congrArg (fun given => setAll given rest) (set_comm given second.2 first.2 hne)
  | trans hfirst _ ih ih' =>
    rw [ih hnodup, ih' ((hfirst.map Prod.fst).nodup hnodup)]

/-! ## Entries under plain keys -/

/-- Entries whose keys are texts. -/
def worded (entries : List (Text × Datum)) : List (Datum × Datum) :=
  entries.map fun entry => (.text entry.1, entry.2)

/-- An entry under the plain form of its key. -/
def plainKeyed (entry : Text × Datum) : Text × Datum :=
  (Attribute.plainKey entry.1, entry.2)

/-- The attribute that an entry under a plain key gives, and its value. -/
def valueOf? (entry : Text × Datum) : Option (Attribute × Datum) :=
  (Attribute.ofKey? entry.1).map fun a => (a, entry.2)

/-- Entries that all give attributes are added by setting these. -/
theorem foldlM_worded {index : Nat} {entries : List (Text × Datum)}
    (h : ∀ entry ∈ entries.map plainKeyed, Attribute.ofKey? entry.1 ≠ none) (given : Given) :
    (worded entries).foldlM (add index) given =
      .ok (given.setAll ((entries.map plainKeyed).filterMap valueOf?)) := by
  induction entries generalizing given with
  | nil => rfl
  | cons entry rest ih =>
    obtain ⟨hentry, hrest⟩ := List.forall_mem_cons.mp h
    obtain ⟨a, ha⟩ := Option.ne_none_iff_exists'.mp hentry
    have hvalue : valueOf? (plainKeyed entry) = some (a, entry.2) := by
      rw [valueOf?, ha]
      rfl
    rw [plainKeyed] at ha
    rw [worded, List.map_cons, List.foldlM_cons, add, ha, List.map_cons, List.filterMap_cons_some hvalue]
    exact ih hrest (given.set a entry.2)

/-- If all entries are added, each key that is a text is one of an attribute. -/
theorem known_of_foldlM {index : Nat} {entries : List (Datum × Datum)} {given given' : Given}
    (h : entries.foldlM (add index) given = .ok given') {key : Text} {value : Datum}
    (hmem : (.text key, value) ∈ entries) : ¬ Attribute.IsUnknown key := by
  induction entries generalizing given with
  | nil => cases hmem
  | cons entry rest ih =>
    rw [List.foldlM_cons] at h
    obtain ⟨next, hnext, h⟩ := except_bind_ok h
    rcases List.mem_cons.mp hmem with rfl | hlater
    · intro hunknown
      rw [add, Attribute.isUnknown_iff.mp hunknown] at hnext
      cases hnext
    · exact ih h hlater

/-- Of entries whose keys are texts, one that gives no attribute is told if there is one. -/
theorem foldlM_worded_unknown (index : Nat) {entries : List (Text × Datum)} {key : Text}
    (hkey : key ∈ entries.map Prod.fst) (hunknown : Attribute.IsUnknown key) (given : Given) :
    ∃ key' ∈ entries.map Prod.fst, Attribute.IsUnknown key' ∧
      (worded entries).foldlM (add index) given =
        inconsistent (.unknownKey index (Attribute.plainKey key')) := by
  induction entries generalizing given with
  | nil => cases hkey
  | cons entry rest ih =>
    cases hentry : Attribute.ofKey? (Attribute.plainKey entry.1) with
    | none =>
      refine ⟨entry.1, List.mem_cons_self .., Attribute.isUnknown_iff.mpr hentry, ?_⟩
      rw [worded, List.map_cons, List.foldlM_cons, add, hentry]
      rfl
    | some a =>
      -- The key in question is a later one, since the first is known.
      have hlater : key ∈ rest.map Prod.fst := by
        rcases List.mem_cons.mp hkey with rfl | hlater
        · rw [Attribute.isUnknown_iff.mp hunknown] at hentry
          cases hentry
        · exact hlater
      obtain ⟨key', hmem, hunknown', hfold⟩ := ih hlater (given.set a entry.2)
      refine ⟨key', List.mem_cons_of_mem _ hmem, hunknown', ?_⟩
      rw [worded, List.map_cons, List.foldlM_cons, add, hentry]
      exact hfold

end Given

/-! ## Mappings -/

theorem Datum.isGiven_of_entries? {d : Datum} {entries : List (Datum × Datum)}
    (h : d.entries? = some entries) : d.isGiven = !entries.isEmpty := by
  rw [entries?] at h
  split at h
  · rename_i found hopened
    cases h
    rw [isGiven, hopened]
  · cases h

/-- The entries of the inner mapping are those of the value under its key. -/
theorem Given.innerEntries_of_entries? {entries inner : List (Datum × Datum)} {container : Datum}
    (hfind : Datum.find? "encoding" entries = some container) (h : container.entries? = some inner) :
    innerEntries entries = .ok inner := by
  rw [innerEntries, hfind]
  simp only [Datum.isGiven_of_entries? h, h]
  -- A mapping without entries does not count as given, and has none to be read either.
  cases inner <;> rfl

/-- A way to write the values of a token: the entries of the mapping itself and those of the inner one. The
key of the inner mapping is none of its own. -/
structure Writing where
  own : List (Text × Datum)
  inner : List (Text × Datum)
  own_ne : ∀ entry ∈ own, entry.1 ≠ Text.ofString "encoding"

namespace Writing

open Given

variable {w w' : Writing} {d d' : Datum}

/-- All entries, in the order in which they are read. -/
def entries (w : Writing) : List (Text × Datum) :=
  w.inner ++ w.own

/-- Whether a value has the entries of the inner mapping. A value that is not given has none. -/
def Holds (container : Datum) (inner : List (Text × Datum)) : Prop :=
  container.entries? = some (worded inner) ∨ container.isGiven = false ∧ inner = []

/-- Whether a mapping is written this way: without an inner mapping, or with one at any place among its own
entries. -/
inductive IsOf (w : Writing) (d : Datum) : Prop
  | plain (hd : d.entries? = some (worded w.own)) (hinner : w.inner = [])
  | nested {before after : List (Text × Datum)} {container : Datum} (hown : w.own = before ++ after)
    (hd : d.entries? = some (worded before ++ (.text "encoding", container) :: worded after))
    (hinner : Holds container w.inner)

/-- One change of the way in which the values of a token are written. -/
inductive Move : Writing → Writing → Prop
  /-- The keys of each mapping come in another order. -/
  | permute {w w' : Writing} (hown : w.own.Perm w'.own) (hinner : w.inner.Perm w'.inner) : Move w w'
  /-- Keys are replaced by others with the same plain forms. -/
  | rename {w w' : Writing} (hown : w.own.map plainKeyed = w'.own.map plainKeyed)
    (hinner : w.inner.map plainKeyed = w'.inner.map plainKeyed) : Move w w'
  /-- An entry moves to the inner mapping. -/
  | inward {w w' : Writing} (entry : Text × Datum) (hown : w.own.Perm (entry :: w'.own))
    (hinner : w'.inner.Perm (entry :: w.inner)) : Move w w'
  /-- An entry of the inner mapping moves to the mapping itself. -/
  | outward {w w' : Writing} (entry : Text × Datum) (hown : w'.own.Perm (entry :: w.own))
    (hinner : w.inner.Perm (entry :: w'.inner)) : Move w w'

/-- Whether one way of writing leads to another by some moves. -/
def Leads : Writing → Writing → Prop :=
  Relation.ReflTransGen Move

/-- Whether each attribute is given at most once. -/
def GivesOnce (w : Writing) : Prop :=
  (w.entries.filterMap fun entry => Attribute.ofKey? (Attribute.plainKey entry.1)).Nodup

/-! ### Moves -/

/-- **A move changes neither values nor plain keys.** -/
theorem Move.perm (h : Move w w') : (w.entries.map plainKeyed).Perm (w'.entries.map plainKeyed) := by
  cases h with
  | permute hown hinner => exact (hinner.append hown).map plainKeyed
  | rename hown hinner => rw [entries, entries, List.map_append, List.map_append, hown, hinner]
  | inward entry hown hinner =>
    have hmiddle : (w.inner ++ entry :: w'.own).Perm (entry :: w.inner ++ w'.own) := List.perm_middle
    exact (((hown.append_left w.inner).trans hmiddle).trans (hinner.symm.append_right w'.own)).map plainKeyed
  | outward entry hown hinner =>
    have hmiddle : (entry :: w'.inner ++ w.own).Perm (w'.inner ++ entry :: w.own) := List.perm_middle.symm
    exact (((hinner.append_right w.own).trans hmiddle).trans (hown.symm.append_left w'.inner)).map plainKeyed

theorem Leads.perm (h : Leads w w') : (w.entries.map plainKeyed).Perm (w'.entries.map plainKeyed) := by
  induction h with
  | refl => exact .refl _
  | tail _ hmove ih => exact ih.trans hmove.perm

theorem GivesOnce.nodup (h : w.GivesOnce) :
    (((w.entries.map plainKeyed).filterMap valueOf?).map Prod.fst).Nodup := by
  have hfst : ((w.entries.map plainKeyed).filterMap valueOf?).map Prod.fst =
      w.entries.filterMap fun entry => Attribute.ofKey? (Attribute.plainKey entry.1) := by
    rw [List.map_filterMap, List.filterMap_map]
    refine List.filterMap_congr fun entry _ => ?_
    rw [Function.comp_apply, valueOf?, Option.map_map]
    exact Option.map_id_apply
  rwa [hfst]

/-! ### Reading -/

theorem find?_worded {entries : List (Text × Datum)}
    (h : ∀ entry ∈ entries, entry.1 ≠ Text.ofString "encoding") (rest : List (Datum × Datum)) :
    Datum.find? "encoding" (worded entries ++ rest) = Datum.find? "encoding" rest := by
  induction entries with
  | nil => rfl
  | cons entry later ih =>
    obtain ⟨hentry, hlater⟩ := List.forall_mem_cons.mp h
    rw [worded, List.map_cons, List.cons_append, Datum.find?, if_neg hentry]
    exact ih hlater

theorem filter_worded {entries : List (Text × Datum)}
    (h : ∀ entry ∈ entries, entry.1 ≠ Text.ofString "encoding") :
    (worded entries).filter (fun entry => !isEncodingKey entry.1) = worded entries := by
  refine List.filter_eq_self.mpr fun entry hmem => ?_
  obtain ⟨found, hfound, rfl⟩ := List.mem_map.mp hmem
  simpa [isEncodingKey] using h found hfound

theorem innerEntries_of_holds {entries : List (Datum × Datum)} {container : Datum}
    {inner : List (Text × Datum)} (hfind : Datum.find? "encoding" entries = some container)
    (h : Holds container inner) : innerEntries entries = .ok (worded inner) := by
  rcases h with hmap | ⟨hmissing, rfl⟩
  · exact innerEntries_of_entries? hfind hmap
  · rw [innerEntries, hfind]
    simp [hmissing, worded]

/-- What a mapping gives is what its entries give. -/
theorem ofDatum_of_isOf (h : w.IsOf d) (index : Nat) :
    Given.ofDatum index d = (worded w.entries).foldlM (add index) nothing := by
  have happend (first second : List (Text × Datum)) : worded (first ++ second) = worded first ++ worded second :=
    List.map_append
  rw [entries, happend]
  cases h with
  | plain hd hinner =>
    have hfind := find?_worded w.own_ne []
    rw [List.append_nil] at hfind
    have hnone : innerEntries (worded w.own) = .ok [] := by
      rw [innerEntries, hfind]
      rfl
    rw [Given.ofDatum, hd]
    simp only [hnone, filter_worded w.own_ne, hinner]
    rfl
  | @nested before after container hown hd hinner =>
    have hne := w.own_ne
    rw [hown] at hne
    obtain ⟨hbefore, hafter⟩ := List.forall_mem_append.mp hne
    have hfind : Datum.find? "encoding" (worded before ++ (.text "encoding", container) :: worded after) =
        some container := by
      rw [find?_worded hbefore, Datum.find?, if_pos rfl]
    -- The mapping's own entries are those in front of the inner mapping and those behind it.
    have hfilter : (worded before ++ (.text "encoding", container) :: worded after).filter
        (fun entry => !isEncodingKey entry.1) = worded w.own := by
      have hkey : (!isEncodingKey (.text "encoding")) = false := by simp [isEncodingKey]
      rw [List.filter_append, List.filter_cons_of_neg (by simp [hkey]), filter_worded hbefore,
        filter_worded hafter, hown, happend]
    rw [Given.ofDatum, hd]
    simp only [innerEntries_of_holds hfind hinner, hfilter]
    rfl

end Writing

/-! ### Values under the names of their attributes -/

theorem Attribute.ofKey?_plainKey (a : Attribute) : ofKey? (plainKey a.key) = some a := by
  cases a <;> cbv

theorem Attribute.key_ne_encoding (a : Attribute) :
    Text.ofString a.key ≠ Text.ofString "encoding" := by
  cases a <;> decide +kernel

theorem Signal.memberNamed_name (s : Signal) :
    memberNamed Signal.all Signal.name "signal" (.text s.name) = .ok s := by
  cases s with
  | opens c => cases c <;> cbv
  | closes c => cases c <;> cbv
  | _ => cbv

theorem Primitive.memberNamed_name (p : Primitive) :
    memberNamed Primitive.all Primitive.name "primitive type" (.text p.name) = .ok p := by
  cases p <;> cbv

namespace Given

/-- Values under the names of their attributes. -/
def keyed (values : List (Attribute × Datum)) : List (Datum × Datum) :=
  values.map fun value => (.text value.1.key, value.2)

/-- The way in which values are written under the names of their attributes. -/
def keyedWriting (values : List (Attribute × Datum)) : Writing where
  own := values.map fun value => (Text.ofString value.1.key, value.2)
  inner := []
  own_ne := by
    intro entry hentry
    obtain ⟨value, -, rfl⟩ := List.mem_map.mp hentry
    exact value.1.key_ne_encoding

theorem worded_keyedWriting (values : List (Attribute × Datum)) : worded (keyedWriting values).own = keyed values :=
  List.map_map

theorem valueOf?_plainKeyed (value : Attribute × Datum) :
    valueOf? (plainKeyed (Text.ofString value.1.key, value.2)) = some value := by
  rw [valueOf?, plainKeyed, Attribute.ofKey?_plainKey]
  rfl

/-- Values that are written under the names of their attributes are read. -/
theorem ofDatum_keyed (index : Nat) (values : List (Attribute × Datum)) :
    ofDatum index (.map (keyed values)) = .ok (nothing.setAll values) := by
  have hwritten : (keyedWriting values).IsOf (.map (keyed values)) :=
    .plain (congrArg some (worded_keyedWriting values).symm) rfl
  have hvalues : ((keyedWriting values).entries.map plainKeyed).filterMap valueOf? = values := by
    rw [Writing.entries, keyedWriting, List.nil_append, List.map_map, List.filterMap_map]
    exact (List.filterMap_congr fun value _ => valueOf?_plainKeyed value).trans List.filterMap_some
  have hknown : ∀ entry ∈ (keyedWriting values).entries.map plainKeyed, Attribute.ofKey? entry.1 ≠ none := by
    intro plain hplain
    obtain ⟨entry, hentry, rfl⟩ := List.mem_map.mp hplain
    obtain ⟨value, -, rfl⟩ := List.mem_map.mp hentry
    rw [plainKeyed, Attribute.ofKey?_plainKey]
    exact Option.some_ne_none value.1
  rw [Writing.ofDatum_of_isOf hwritten, foldlM_worded hknown, hvalues]

end Given

/-- The mapping of a token: its signal and its name, and a count, a length and a primitive type where
they are given. -/
def Datum.item (signal : Signal) (name : String) (count length : Option Int)
    (primitive : Option Primitive) : Datum :=
  .map (Given.keyed (List.reduceOption [
    some (.signal, .text signal.name),
    some (.name, .text name),
    count.map fun n => (.tokenCount, .int n),
    length.map fun n => (.encodedLength, .int n),
    primitive.map fun p => (.primitive, .text p.name)]))

theorem Entry.ofDatum_item (index : Nat) (signal : Signal) (name : String) (count length : Option Int)
    (primitive : Option Primitive) :
    ofDatum index (.item signal name count length primitive) =
      .ok ⟨{ signal, name, tokenCount := some (count.getD 1), encodedLength := some (length.getD 0),
             encoding := { primitive } }, count.isSome⟩ := by
  rw [ofDatum, Datum.item, Given.ofDatum_keyed]
  change (Given.token index _ >>= _) = _
  rw [Given.token]
  cases count <;> cases length <;> cases primitive <;>
    simp [Given.setAll, Given.set, Given.nothing, Given.number, Given.encoding, Given.member,
      Given.text, Given.raw, Signal.memberNamed_name, Primitive.memberNamed_name, Datum.written,
      Datum.asText?_text, Datum.toInteger] <;> rfl

/-! ## Entries -/

namespace Entry

open Given Writing

variable {w w' : Writing} {d d' : Datum}

/-- **A key that is no attribute is told**, if all keys are texts. -/
theorem ofDatum_of_isUnknown (h : w.IsOf d) (index : Nat) {key : Text} (hkey : key ∈ w.entries.map Prod.fst)
    (hunknown : Attribute.IsUnknown key) :
    ∃ key' ∈ w.entries.map Prod.fst, Attribute.IsUnknown key' ∧
      ofDatum index d = inconsistent (.unknownKey index (Attribute.plainKey key')) := by
  obtain ⟨key', hmem, hunknown', hfold⟩ := foldlM_worded_unknown index hkey hunknown nothing
  refine ⟨key', hmem, hunknown', ?_⟩
  rw [ofDatum, ofDatum_of_isOf h, hfold]
  rfl

/-- Whether there is a key that is no attribute is told from the plain keys. -/
theorem exists_isUnknown_of_perm (h : (w.entries.map plainKeyed).Perm (w'.entries.map plainKeyed))
    (hunknown : ∃ key ∈ w.entries.map Prod.fst, Attribute.IsUnknown key) :
    ∃ key ∈ w'.entries.map Prod.fst, Attribute.IsUnknown key := by
  obtain ⟨key, hkey, hunknown⟩ := hunknown
  obtain ⟨entry, hentry, rfl⟩ := List.mem_map.mp hkey
  obtain ⟨entry', hentry', hplain⟩ := List.mem_map.mp (h.subset (List.mem_map_of_mem hentry))
  refine ⟨entry'.1, List.mem_map_of_mem hentry', ?_⟩
  have hkeys : Attribute.plainKey entry'.1 = Attribute.plainKey entry.1 := congrArg Prod.fst hplain
  rwa [Attribute.IsUnknown, hkeys]

/-- **However its values are written, a token is the same**, if each attribute is given once. -/
theorem ofDatum_of_leads (hd : w.IsOf d) (hd' : w'.IsOf d') (honce : w.GivesOnce) (h : w.Leads w')
    (index : Nat) : (ofDatum index d').toOption = (ofDatum index d).toOption := by
  have hperm := h.perm
  by_cases hunknown : ∃ key ∈ w.entries.map Prod.fst, Attribute.IsUnknown key
  · -- Both are refused, maybe for different keys, since the first one that is met is told.
    obtain ⟨key, hkey, hkey'⟩ := hunknown
    obtain ⟨told, -, -, htold⟩ := ofDatum_of_isUnknown hd index hkey hkey'
    obtain ⟨key, hkey, hkey'⟩ := exists_isUnknown_of_perm hperm ⟨key, hkey, hkey'⟩
    obtain ⟨told', -, -, htold'⟩ := ofDatum_of_isUnknown hd' index hkey hkey'
    rw [htold, htold']
    rfl
  · -- All keys are known, so what is given is set in two orders.
    have hknown : ∀ entry ∈ w.entries.map plainKeyed, Attribute.ofKey? entry.1 ≠ none := by
      intro plain hplain hnone
      obtain ⟨entry, hentry, rfl⟩ := List.mem_map.mp hplain
      exact hunknown ⟨entry.1, List.mem_map_of_mem hentry, Attribute.isUnknown_iff.mpr hnone⟩
    have hknown' : ∀ entry ∈ w'.entries.map plainKeyed, Attribute.ofKey? entry.1 ≠ none := by
      intro plain hplain
      exact hknown plain (hperm.symm.subset hplain)
    have hsame : Given.ofDatum index d' = Given.ofDatum index d := by
      rw [ofDatum_of_isOf hd, ofDatum_of_isOf hd', foldlM_worded hknown, foldlM_worded hknown',
        setAll_perm (hperm.filterMap valueOf?) honce.nodup]
    rw [ofDatum, ofDatum, hsame]

/-- A mapping is refused for a key of its own that is no attribute, and for one of the inner mapping. -/
theorem exists_error_of_isUnknown {entries : List (Datum × Datum)} (hd : d.entries? = some entries)
    (index : Nat) {key : Text} (hunknown : Attribute.IsUnknown key)
    (hkey : (key ≠ Text.ofString "encoding" ∧ ∃ value, (.text key, value) ∈ entries) ∨
      ∃ container inner value, Datum.find? "encoding" entries = some container ∧
        container.entries? = some inner ∧ (.text key, value) ∈ inner) :
    ∃ fault, ofDatum index d = .error fault := by
  cases hresult : ofDatum index d with
  | error fault => exact ⟨fault, rfl⟩
  | ok e =>
    exfalso
    rw [ofDatum] at hresult
    obtain ⟨given, hgiven, -⟩ := except_bind_ok hresult
    rw [Given.ofDatum, hd] at hgiven
    obtain ⟨inner, hinner, hfold⟩ := except_bind_ok hgiven
    rcases hkey with ⟨hne, value, hmem⟩ | ⟨container, found, value, hfind, hcontainer, hmem⟩
    · refine known_of_foldlM hfold (List.mem_append_right _ (List.mem_filter.mpr ⟨hmem, ?_⟩)) hunknown
      simpa [isEncodingKey] using hne
    · have hfound : inner = found :=
        Except.ok.inj (hinner.symm.trans (innerEntries_of_entries? hfind hcontainer))
      exact known_of_foldlM hfold (List.mem_append_left _ (hfound ▸ hmem)) hunknown

/-- What is given under the key of the inner mapping is a mapping. -/
theorem ofDatum_of_noMapping {entries : List (Datum × Datum)} {container : Datum}
    (hd : d.entries? = some entries) (hfind : Datum.find? "encoding" entries = some container)
    (hgiven : container.isGiven = true) (hcontainer : container.entries? = none) (index : Nat) :
    ofDatum index d = .error (.noPart container.kind "items") := by
  have hinner : innerEntries entries = .error (.noPart container.kind "items") := by
    rw [innerEntries, hfind]
    simp only [hgiven, hcontainer, if_true]
  rw [ofDatum, Given.ofDatum, hd]
  simp only [hinner]
  rfl

/-- **The way in which a token is written does not matter.** If each attribute is given once, then whether an
attribute stands in the mapping itself or in the inner one, in which of its forms its key is written and in
which order the keys come changes neither the token nor whether there is one. A key that is no attribute is
refused wherever it stands, also one that is `encoding` in another form, and so is an inner mapping that is
none. -/
theorem ofDatum_anyWay (index : Nat) (d : Datum) :
    (∀ (w w' : Writing) (d' : Datum), w.IsOf d → w'.IsOf d' → w.GivesOnce → w.Leads w' →
      (ofDatum index d').toOption = (ofDatum index d).toOption) ∧
    ∀ entries, d.entries? = some entries →
      (∀ key, Attribute.IsUnknown key →
        ((key ≠ Text.ofString "encoding" ∧ ∃ value, (.text key, value) ∈ entries) ∨
          ∃ container inner value, Datum.find? "encoding" entries = some container ∧
            container.entries? = some inner ∧ (.text key, value) ∈ inner) →
        ∃ fault, ofDatum index d = .error fault) ∧
      ∀ container, Datum.find? "encoding" entries = some container → container.isGiven = true →
        container.entries? = none → ofDatum index d = .error (.noPart container.kind "items") := by
  constructor
  · intro w w' d' hd hd' honce h
    exact ofDatum_of_leads hd hd' honce h index
  · intro entries hd
    constructor
    · intro key hunknown hkey
      exact exists_error_of_isUnknown hd index hunknown hkey
    · intro container hfind hgiven hcontainer
      exact ofDatum_of_noMapping hd hfind hgiven hcontainer index

/-- The mapping of a price, in which the type stands in the inner mapping and its key is in camel case. -/
def priceItem : Datum :=
  .map [(.text "name", .text "price"), (.text "encoding", .map [(.text "primitiveType", .text "int64")]),
    (.text "signal", .text "ENCODING")]

/-- A price as it is written without an inner mapping. -/
def flatPrice : Writing where
  own := [("signal", .text "ENCODING"), ("name", .text "price"), ("primitive_type", .text "int64")]
  inner := []
  own_ne := by decide +kernel

/-- A price as it is written in its mapping. -/
def nestedPrice : Writing where
  own := [("name", .text "price"), ("signal", .text "ENCODING")]
  inner := [("primitiveType", .text "int64")]
  own_ne := by decide +kernel

theorem flatPrice_leads : flatPrice.Leads nestedPrice := by
  -- The type moves first, and then its key is replaced.
  let halfway : Writing := { nestedPrice with inner := [("primitive_type", .text "int64")] }
  have hmove : Move flatPrice halfway :=
    .inward ("primitive_type", .text "int64") (List.reverse_perm flatPrice.own).symm (.refl _)
  have hrename : Move halfway nestedPrice := by
    refine .rename rfl ?_
    have hkey : Attribute.plainKey "primitive_type" = Attribute.plainKey "primitiveType" := by decide +kernel
    simp only [halfway, nestedPrice, List.map_cons, List.map_nil, plainKeyed, hkey]
  exact (Relation.ReflTransGen.single hmove).tail hrename

theorem ofDatum_priceItem :
    (ofDatum 0 priceItem).toOption =
      some ⟨{ signal := .encoding, name := "price", encoding := { primitive := some .int64 } }, false⟩ ∧
    (∃ fault, ofDatum 0 (.map [(.text "colour", .text "red")]) = .error fault) ∧
    ofDatum 0 (.map [(.text "encoding", .int 5)]) = .error (.noPart .int "items") := by
  have hplain : flatPrice.IsOf (.item .encoding "price" none none (some .int64)) := .plain rfl rfl
  have hnested : nestedPrice.IsOf priceItem := by
    let name : Text × Datum := ("name", .text "price")
    let signal : Text × Datum := ("signal", .text "ENCODING")
    have hown : nestedPrice.own = [name] ++ [signal] := rfl
    exact .nested hown rfl (.inl rfl)
  have honce : flatPrice.GivesOnce := by
    unfold GivesOnce
    decide +kernel
  refine ⟨?_, ?_, ?_⟩
  · have hsame := (ofDatum_anyWay 0 (.item .encoding "price" none none (some .int64))).1 flatPrice nestedPrice
      priceItem hplain hnested honce flatPrice_leads
    rw [hsame, ofDatum_item]
    rfl
  · have hcolour : Attribute.IsUnknown "colour" := Attribute.isUnknown_iff.mpr (by decide +kernel)
    exact ((ofDatum_anyWay 0 _).2 _ rfl).1 "colour" hcolour
      (.inl ⟨by decide, .text "red", List.mem_singleton_self _⟩)
  · exact ((ofDatum_anyWay 0 _).2 [(.text "encoding", .int 5)] rfl).2 (.int 5) rfl rfl rfl

end Entry

end SimpleBinary
