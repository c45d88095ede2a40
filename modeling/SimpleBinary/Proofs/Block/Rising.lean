import SimpleBinary.Proofs.Block.Evolution

/-!
Known lengths rise.

The fields of a block may be of any versions in any order, so an end that is recorded for a version may lie
behind or before those of the other versions. The known lengths are a selection of these ends: from entry to
entry both the version and the length get greater, and the last length is the offset of the block. What they
are to tell is the largest end among the fields that a version has (`furthestEnd`), which is taken here from
the steps of the block, and not from the record. The two agree (`Block.knownAt_eq_furthestEnd`).
-/

set_option autoImplicit false

namespace SimpleBinary

/-! ## The order of the entries -/

namespace FieldEnds

/-- A version is recorded once. -/
theorem nodup_record {since : Option Int} {stop : Int} {ends : FieldEnds}
    (h : (ends.map Prod.fst).Nodup) : ((record since stop ends).map Prod.fst).Nodup := by
  induction ends with
  | nil => exact List.nodup_singleton _
  | cons entry rest ih =>
    obtain ⟨hfirst, hrest⟩ := List.nodup_cons.mp h
    rw [record]
    split
    · exact h
    · rename_i hother
      refine List.nodup_cons.mpr ⟨?_, ih hrest⟩
      rw [mem_keys_record]
      rintro (hsame | hmem)
      · exact hother hsame
      · exact hfirst hmem

/-- Where every version is recorded once, the versions in ascending order get greater. -/
theorem ascending_lt {ends : FieldEnds} {sorted : List (Int × Int)} (h : ends.ascending = .ok sorted)
    (hnodup : (ends.map Prod.fst).Nodup) : sorted.Pairwise fun a b => a.1 < b.1 := by
  obtain ⟨hperm, hsorted⟩ := ascending_ok h
  rw [← (hperm.map Prod.fst).nodup_iff, ofKnown, List.map_map] at hnodup
  have hapart : sorted.Pairwise fun a b => some a.1 ≠ some b.1 := List.pairwise_map.mp hnodup
  refine (hsorted.and hapart).imp ?_
  rintro a b ⟨hle, hne⟩
  exact lt_of_le_of_ne hle fun heq => hne (congrArg some heq)

theorem rising_sublist (reached : Int) (known : List (Int × Int)) : (rising reached known).Sublist known := by
  induction known generalizing reached with
  | nil => exact List.Sublist.refl _
  | cons entry rest ih =>
    rw [rising]
    split
    · exact (ih _).cons_cons _
    · exact (ih _).cons _

/-- The entries that are kept reach further, each than those before it. -/
theorem rising_lt (reached : Int) (known : List (Int × Int)) :
    (∀ entry ∈ rising reached known, reached < entry.2) ∧
      (rising reached known).Pairwise fun a b => a.2 < b.2 := by
  induction known generalizing reached with
  | nil => exact ⟨nofun, .nil⟩
  | cons entry rest ih =>
    rw [rising]
    split
    · rename_i hlt
      obtain ⟨hbeyond, hpairwise⟩ := ih entry.2
      refine ⟨?_, List.pairwise_cons.mpr ⟨hbeyond, hpairwise⟩⟩
      intro e he
      rcases List.mem_cons.mp he with rfl | he
      · exact hlt
      · exact hlt.trans (hbeyond e he)
    · exact ih reached

/-- **Known lengths rise**, and so do their versions. -/
theorem knownLengths_rise {ends : FieldEnds} {known : List (Int × Int)} (h : ends.knownLengths = .ok known)
    (hnodup : (ends.map Prod.fst).Nodup) :
    known.Pairwise fun a b => a.1 < b.1 ∧ a.2 < b.2 := by
  rw [knownLengths] at h
  obtain ⟨sorted, hascending, h⟩ := except_bind_ok h
  have hversions := ascending_lt hascending hnodup
  cases sorted with
  | nil =>
    obtain rfl := Except.ok.inj h
    exact .nil
  | cons first rest =>
    obtain rfl := Except.ok.inj h
    obtain ⟨hbeyond, hlengths⟩ := rising_lt first.2 rest
    refine List.Pairwise.and ?_ (List.pairwise_cons.mpr ⟨hbeyond, hlengths⟩)
    exact hversions.sublist ((rising_sublist _ _).cons_cons _)

end FieldEnds

/-! ## The largest end -/

/-- The ends of the fields on the wire that a version has, among steps that begin at a position. -/
def endsOf (version start : Int) : List Step → List Int
  | [] => []
  | s :: rest =>
    let stop := start + s.width
    if s.since?.any (· ≤ version) then stop :: endsOf version stop rest else endsOf version stop rest

/-- The largest end of the fields on the wire that a version has, and 0 where it has none. -/
def furthestEnd (version : Int) (steps : List Step) : Int :=
  (endsOf version 0 steps).max?.getD 0

section

variable {version start : Int} {s : Step}

theorem endsOf_append (a b : List Step) :
    endsOf version start (a ++ b) = endsOf version start a ++ endsOf version (start + written a) b := by
  induction a generalizing start with
  | nil => simp [endsOf]
  | cons first rest ih =>
    rw [List.cons_append, endsOf, endsOf, ih, written_cons, ← Int.add_assoc]
    split <;> rfl

/-- A step that is no field on the wire has no end. -/
theorem furthestEnd_concat_of_none (steps : List Step) (h : s.wire? = none) :
    furthestEnd version (steps ++ [s]) = furthestEnd version steps := by
  rw [furthestEnd, endsOf_append, endsOf, Step.since?_of_not_wire h]
  simp [endsOf, furthestEnd]

/-- The largest of several ends and one more. -/
theorem max?_concat (stops : List Int) (stop : Int) (hstop : 0 ≤ stop) :
    (stops ++ [stop]).max?.getD 0 = max stop (stops.max?.getD 0) := by
  cases hmax : stops.max? with
  | none =>
    rw [List.max?_eq_none_iff.mp hmax]
    exact (max_eq_left hstop).symm
  | some largest =>
    obtain ⟨hmem, hle⟩ := List.max?_eq_some_iff.mp hmax
    have hboth : (stops ++ [stop]).max? = some (max stop largest) := by
      refine List.max?_eq_some_iff.mpr ⟨?_, ?_⟩
      · rcases max_choice stop largest with heq | heq <;> simp [heq, hmem]
      · refine List.forall_mem_append.mpr ⟨fun e he => (hle e he).trans (le_max_right ..), ?_⟩
        exact List.forall_mem_singleton.mpr (le_max_left ..)
    rw [hboth]
    rfl

/-- A field on the wire ends behind all steps up to it. -/
theorem furthestEnd_concat_of_some {steps : List Step} {field type : Token}
    (h : s.wire? = some (field, type)) (hstop : 0 ≤ written (steps ++ [s])) :
    furthestEnd version (steps ++ [s]) =
      if field.version.any (· ≤ version) then max (written (steps ++ [s])) (furthestEnd version steps)
      else furthestEnd version steps := by
  have hlast : written (steps ++ [s]) = 0 + written steps + s.width := by simp
  rw [hlast] at hstop ⊢
  rw [furthestEnd, endsOf_append, endsOf, Step.since?_of_wire? h]
  split
  · exact max?_concat _ _ hstop
  · simp [endsOf, furthestEnd]

end

namespace Block

variable {steps : List Step} {offset version : Int} {ends : FieldEnds} {known : List (Int × Int)}

theorem nodup_versions (h : Block steps offset ends) : (ends.map Prod.fst).Nodup := by
  induction h with
  | empty => exact List.nodup_singleton _
  | validation _ ih => exact ih
  | constant _ _ _ ih => exact ih
  | field _ _ _ _ _ ih => exact FieldEnds.nodup_record ih
  | padded _ _ _ _ _ _ ih => exact FieldEnds.nodup_record ih

theorem offset_nonneg (h : Block steps offset ends) : 0 ≤ offset :=
  h.written_eq ▸ written_nonneg h.width_nonneg

/-- **The fields of the versions up to a given one reach to the largest of their ends.** -/
theorem upTo_eq_furthestEnd (h : Block steps offset ends) :
    ends.upTo version = furthestEnd version steps := by
  -- A field that is recorded is the last of the steps by then, and ends where they do.
  induction h with
  | empty => simp [FieldEnds.upTo, furthestEnd, endsOf]
  | validation _ ih => rw [furthestEnd_concat_of_none _ rfl, ih]
  | constant _ htokens hc ih => rw [furthestEnd_concat_of_none _ (Step.wire?_of_constant htokens hc), ih]
  | field hblock hwire hlength hnonneg hdeclared ih =>
    have hlonger := Block.field hblock hwire hlength hnonneg hdeclared
    have hstop := hlonger.written_eq
    rw [FieldEnds.upTo_record, furthestEnd_concat_of_some hwire (hstop ▸ hlonger.offset_nonneg), hstop, ih]
  | padded hblock hwire hlength hnonneg hsize hdeclared ih =>
    have hlonger := Block.padded hblock hwire hlength hnonneg hsize hdeclared
    have hstop := hlonger.written_eq
    rw [FieldEnds.upTo_record, furthestEnd_concat_of_some hwire (hstop ▸ hlonger.offset_nonneg), hstop, ih,
      furthestEnd_concat_of_none _ rfl]

/-- All fields together reach to the offset. -/
theorem upTo_eq_offset (h : Block steps offset ends) (hall : ∀ key ∈ ends.map Prod.fst, key.any (· ≤ version)) :
    ends.upTo version = offset := by
  have hrecord {since : Option Int} {stop : Int} {ends : FieldEnds}
      (hall : ∀ key ∈ (ends.record since stop).map Prod.fst, key.any (· ≤ version)) :
      since.any (· ≤ version) ∧ ∀ key ∈ ends.map Prod.fst, key.any (· ≤ version) :=
    ⟨hall since (FieldEnds.mem_keys_record.mpr (.inl rfl)),
      fun key hkey => hall key (FieldEnds.mem_keys_record.mpr (.inr hkey))⟩
  induction h with
  | empty => simp [FieldEnds.upTo]
  | validation _ ih => exact ih hall
  | constant _ _ _ ih => exact ih hall
  | field _ _ _ hnonneg _ ih =>
    obtain ⟨hsince, hbefore⟩ := hrecord hall
    rw [FieldEnds.upTo_record, if_pos hsince, ih hbefore]
    omega
  | padded _ _ _ hnonneg hsize _ ih =>
    obtain ⟨hsince, hbefore⟩ := hrecord hall
    rw [FieldEnds.upTo_record, if_pos hsince, ih hbefore]
    omega

/-- **A version knows the largest end of the fields that it has.** -/
theorem knownAt_eq_furthestEnd (h : Block steps offset ends) (hknown : ends.knownLengths = .ok known)
    (hversion : 0 ≤ version) : knownAt version known = some (furthestEnd version steps) := by
  rw [FieldEnds.knownAt_knownLengths hknown h.zero_mem h.ends_nonneg hversion, h.upTo_eq_furthestEnd]

/-- **The last of the known lengths is the offset.** -/
theorem exists_getLast?_knownLengths (h : Block steps offset ends) (hknown : ends.knownLengths = .ok known) :
    ∃ since, known.getLast? = some (since, offset) := by
  -- A version that is later than all others knows the whole block, and no entry is beyond it.
  obtain ⟨latest, hlatest⟩ :=
    (insert 0 ((ends.map Prod.fst).reduceOption ++ known.map Prod.fst).toFinset).exists_le
  have hversion : 0 ≤ latest := hlatest 0 (Finset.mem_insert_self ..)
  have hends : ∀ key ∈ ends.map Prod.fst, key.any (· ≤ latest) := by
    intro key hkey
    obtain ⟨since, rfl⟩ := Option.isSome_iff_exists.mp (FieldEnds.dated_of_knownLengths hknown key hkey)
    have := hlatest since (by simp [List.reduceOption_mem_iff, hkey])
    simpa using this
  have hall : known.filter (fun entry => entry.1 ≤ latest) = known := by
    rw [List.filter_eq_self]
    intro entry hentry
    have := hlatest entry.1 (by simp [List.mem_map_of_mem hentry])
    simpa using this
  have hlast := FieldEnds.knownAt_knownLengths hknown h.zero_mem h.ends_nonneg hversion
  rw [knownAt, hall, h.upTo_eq_offset hends] at hlast
  obtain ⟨⟨since, length⟩, hentry, rfl⟩ := Option.map_eq_some_iff.mp hlast
  exact ⟨since, hentry⟩

end Block

end SimpleBinary
