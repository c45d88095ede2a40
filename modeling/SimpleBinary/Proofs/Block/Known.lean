import SimpleBinary.Plan.Walker
import SimpleBinary.Proofs.Results

/-!
How much of a block a version knows.

A walker records the furthest end of the fields of each version, and the extension skip gets a list of
those that reach further than all before them. The question asked of both is the same: how far do the
fields of the versions up to a given one reach? `FieldEnds.upTo` answers it from the record, `knownAt`
from the list, and the two agree although the list is sorted and entries that reach no further are left
out of it (`knownAt_knownLengths`).
-/

set_option autoImplicit false

namespace SimpleBinary

/-! ## Known lengths -/

/-- How much of a block a version knows: the length of the last entry whose version it has reached. -/
def knownAt (version : Int) (known : List (Int × Int)) : Option Int :=
  (known.filter fun entry => entry.1 ≤ version).getLast?.map Prod.snd

theorem knownAt_of_forall_lt {version : Int} {known : List (Int × Int)}
    (h : ∀ entry ∈ known, version < entry.1) : knownAt version known = none := by
  have : (known.filter fun entry => entry.1 ≤ version) = [] := by
    rw [List.filter_eq_nil_iff]
    intro entry hentry
    have := h entry hentry
    simp only [decide_eq_true_eq]
    omega
  rw [knownAt, this]
  rfl

theorem knownAt_cons_of_le {version : Int} {entry : Int × Int} {known : List (Int × Int)}
    (h : entry.1 ≤ version) :
    knownAt version (entry :: known) = some ((knownAt version known).getD entry.2) := by
  rw [knownAt, List.filter_cons_of_pos (by simpa using h), List.getLast?_cons, knownAt]
  cases (known.filter fun entry => entry.1 ≤ version).getLast? <;> rfl

theorem knownAt_cons_of_lt {version : Int} {entry : Int × Int} {known : List (Int × Int)}
    (h : version < entry.1) : knownAt version (entry :: known) = knownAt version known := by
  rw [knownAt, List.filter_cons_of_neg (by simpa using h), knownAt]

theorem knownAt_concat {version : Int} {entry : Int × Int} {known : List (Int × Int)} :
    knownAt version (known ++ [entry]) =
      if entry.1 ≤ version then some entry.2 else knownAt version known := by
  rw [knownAt, List.filter_append]
  split
  · rename_i h
    rw [List.filter_cons_of_pos (by simpa using h)]
    simp
  · rename_i h
    rw [List.filter_cons_of_neg (by simpa using h)]
    simp [knownAt]

namespace FieldEnds

/-- How far the fields of the versions up to a given one reach. -/
def upTo (version : Int) : FieldEnds → Int
  | [] => 0
  | (since, stop) :: rest =>
    if since.any (· ≤ version) then max stop (upTo version rest) else upTo version rest

/-- The ends of versions that are all there. -/
def ofKnown (known : List (Int × Int)) : FieldEnds :=
  known.map fun entry => (some entry.1, entry.2)

section

variable {version : Int}

/-- A field that is recorded counts for its version and all later ones. -/
theorem upTo_record (since : Option Int) (stop : Int) (ends : FieldEnds) :
    upTo version (record since stop ends) =
      if since.any (· ≤ version) then max stop (upTo version ends) else upTo version ends := by
  induction ends with
  | nil =>
    simp only [record, upTo]
    split <;> omega
  | cons entry rest ih =>
    rw [record]
    split
    · rename_i heq
      simp only [upTo, heq]
      split <;> omega
    · simp only [upTo, ih]
      split <;> split <;> omega

/-- Later versions do not count. -/
theorem upTo_of_forall_lt {known : List (Int × Int)} (h : ∀ entry ∈ known, version < entry.1) :
    upTo version (ofKnown known) = 0 := by
  induction known with
  | nil => rfl
  | cons entry rest ih =>
    have hentry := h entry (List.mem_cons_self ..)
    rw [ofKnown, List.map_cons, upTo, if_neg (by simpa using hentry)]
    exact ih fun e he => h e (List.mem_cons_of_mem _ he)

/-- The order of the entries does not matter. -/
theorem upTo_perm {a b : FieldEnds} (h : a.Perm b) : upTo version a = upTo version b := by
  induction h with
  | nil => rfl
  | cons entry _ ih => simp only [upTo, ih]
  | swap x y rest =>
    simp only [upTo]
    split <;> split <;> omega
  | trans _ _ h₁ h₂ => exact h₁.trans h₂

end

/-- Recording a version neither drops one nor adds any other. -/
theorem mem_keys_record {key since : Option Int} {stop : Int} {ends : FieldEnds} :
    key ∈ (record since stop ends).map Prod.fst ↔ key = since ∨ key ∈ ends.map Prod.fst := by
  induction ends with
  | nil => simp [record]
  | cons entry rest ih =>
    rw [record]
    split
    · rename_i heq
      simp only [List.map_cons, List.mem_cons, heq, ← or_assoc, or_self]
    · simp only [List.map_cons, List.mem_cons, ih, or_left_comm]

/-- Whether every recorded version is there. -/
def Dated (ends : FieldEnds) : Prop :=
  ∀ key ∈ ends.map Prod.fst, key.isSome

theorem dated_record {since : Option Int} {stop : Int} {ends : FieldEnds} :
    (record since stop ends).Dated ↔ (∃ version, since = some version) ∧ ends.Dated := by
  simp only [Dated, mem_keys_record, forall_eq_or_imp, Option.isSome_iff_exists]

/-- No recorded end is before the start of the block. -/
theorem record_nonneg {since : Option Int} {stop : Int} {ends : FieldEnds}
    (h : ∀ entry ∈ ends, 0 ≤ entry.2) : ∀ entry ∈ record since stop ends, 0 ≤ entry.2 := by
  induction ends with
  | nil =>
    intro entry hentry
    obtain rfl := List.mem_singleton.mp hentry
    exact Int.le_max_left ..
  | cons first rest ih =>
    have hfirst := h first (List.mem_cons_self ..)
    have hrest := fun e he => h e (List.mem_cons_of_mem _ he)
    rw [record]
    intro entry hentry
    split at hentry
    · rcases List.mem_cons.mp hentry with rfl | hentry
      · exact Int.le_trans hfirst (Int.le_max_left ..)
      · exact hrest entry hentry
    · rcases List.mem_cons.mp hentry with rfl | hentry
      · exact hfirst
      · exact ih hrest entry hentry

theorem rising_subset (reached : Int) (known : List (Int × Int)) : rising reached known ⊆ known := by
  induction known generalizing reached with
  | nil => exact List.Subset.refl _
  | cons entry rest ih =>
    rw [rising]
    split
    · exact List.cons_subset_cons _ (ih _)
    · exact List.subset_cons_of_subset _ (ih _)

/-- Ends that can be put in order have a version each, and are the same ends in that order. -/
theorem ascending_ok {ends : FieldEnds} {sorted : List (Int × Int)} (h : ends.ascending = .ok sorted) :
    (ofKnown sorted).Perm ends ∧ sorted.Pairwise fun a b => a.1 ≤ b.1 := by
  rw [ascending] at h
  obtain ⟨known, hknown, h⟩ := except_bind_ok h
  obtain rfl := Except.ok.inj h
  have hends : ends = ofKnown known := by
    refine mapM_ok ?_ hknown
    rintro ⟨_ | version, stop⟩ ⟨v, s⟩ hentry
    · cases hentry
    · cases hentry
      rfl
  rw [hends]
  refine ⟨(List.mergeSort_perm ..).map _, ?_⟩
  refine (List.pairwise_mergeSort ?_ ?_ _).imp of_decide_eq_true
  · intro a b c hab hbc
    simp only [decide_eq_true_eq] at hab hbc ⊢
    omega
  · intro a b
    simp only [Bool.or_eq_true, decide_eq_true_eq]
    omega

/-- Where there are known lengths, every recorded version is there. -/
theorem dated_of_knownLengths {ends : FieldEnds} {known : List (Int × Int)}
    (h : ends.knownLengths = .ok known) : ends.Dated := by
  rw [knownLengths] at h
  obtain ⟨sorted, hascending, -⟩ := except_bind_ok h
  intro key hkey
  rw [← ((ascending_ok hascending).1.map Prod.fst).mem_iff] at hkey
  obtain ⟨entry, hentry, rfl⟩ := List.mem_map.mp hkey
  obtain ⟨e, -, rfl⟩ := List.mem_map.mp hentry
  rfl

/-- Where every recorded version is there, there are known lengths. -/
theorem exists_knownLengths {ends : FieldEnds} (h : ends.Dated) :
    ∃ known, ends.knownLengths = .ok known := by
  have hsorted : ∃ sorted, ends.ascending = .ok sorted := by
    rw [ascending]
    refine exists_bind (exists_mapM ?_) fun known => ⟨_, rfl⟩
    rintro ⟨_ | version, stop⟩ hentry
    · simpa using h none (List.mem_map_of_mem hentry)
    · exact ⟨_, rfl⟩
  rw [knownLengths]
  refine exists_bind hsorted fun sorted => ?_
  cases sorted <;> exact ⟨_, rfl⟩

/-- Among entries in the order of their versions, those that reach further than all before them tell
how far each version reaches. -/
theorem knownAt_rising {version : Int} {sorted : List (Int × Int)}
    (hsorted : sorted.Pairwise fun a b => a.1 ≤ b.1) {reached : Int} (hreached : 0 ≤ reached) :
    (knownAt version (rising reached sorted)).getD reached =
      max reached (upTo version (ofKnown sorted)) := by
  induction sorted generalizing reached with
  | nil =>
    simp only [rising, ofKnown, List.map_nil, upTo, knownAt, List.filter_nil, List.getLast?_nil,
      Option.map_none, Option.getD_none]
    omega
  | cons entry rest ih =>
    obtain ⟨hhead, hrest⟩ := List.pairwise_cons.mp hsorted
    by_cases hle : entry.1 ≤ version
    · have hupTo : upTo version (ofKnown (entry :: rest)) =
          max entry.2 (upTo version (ofKnown rest)) := by
        rw [ofKnown, List.map_cons, upTo, if_pos (by simpa using hle), ← ofKnown]
      rw [hupTo, rising]
      split
      · rename_i hlt
        have := ih hrest (show 0 ≤ entry.2 by omega)
        rw [knownAt_cons_of_le hle, Option.getD_some, this]
        omega
      · -- The entry reaches no further than those before it, so it is left out.
        have := ih hrest hreached
        omega
    · -- From here on all entries are of later versions, and none of them counts.
      have hlater : ∀ e ∈ entry :: rest, version < e.1 := by
        intro e he
        rcases List.mem_cons.mp he with rfl | he
        · omega
        · have := hhead e he
          omega
      rw [knownAt_of_forall_lt fun e he => hlater e (rising_subset _ _ he), upTo_of_forall_lt hlater]
      simp only [Option.getD_none]
      omega

/-- **The known lengths tell how far each version reaches**, from the first version on. -/
theorem knownAt_knownLengths {ends : FieldEnds} {known : List (Int × Int)} {version : Int}
    (h : ends.knownLengths = .ok known) (hzero : some 0 ∈ ends.map Prod.fst)
    (hnonneg : ∀ entry ∈ ends, 0 ≤ entry.2) (hversion : 0 ≤ version) :
    knownAt version known = some (upTo version ends) := by
  rw [knownLengths] at h
  obtain ⟨sorted, hascending, h⟩ := except_bind_ok h
  obtain ⟨hperm, hsorted⟩ := ascending_ok hascending
  cases sorted with
  | nil =>
    rw [ofKnown, List.map_nil, List.nil_perm] at hperm
    simp [hperm] at hzero
  | cons first rest =>
    obtain rfl := Except.ok.inj h
    -- The first version of all is not after the one that is always there.
    have hfirst : first.1 ≤ 0 := by
      rw [← (hperm.map Prod.fst).mem_iff] at hzero
      obtain ⟨entry, hentry, hkey⟩ := List.mem_map.mp hzero
      obtain ⟨e, he, rfl⟩ := List.mem_map.mp hentry
      obtain hkey : e.1 = 0 := Option.some.inj hkey
      rcases List.mem_cons.mp he with rfl | he
      · omega
      · have := (List.pairwise_cons.mp hsorted).1 e he
        omega
    have hstop : 0 ≤ first.2 :=
      hnonneg (some first.1, first.2) (hperm.mem_iff.mp (List.mem_map_of_mem (List.mem_cons_self ..)))
    have hle : first.1 ≤ version := by omega
    rw [knownAt_cons_of_le hle, knownAt_rising (List.pairwise_cons.mp hsorted).2 hstop,
      ← upTo_perm hperm, ofKnown, ofKnown, List.map_cons, upTo, if_pos (by simpa using hle)]

end FieldEnds

end SimpleBinary
