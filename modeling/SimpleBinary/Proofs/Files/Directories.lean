import SimpleBinary.Proofs.Files.Locations

/-!
Directories that are made.

A directory is made together with those above it. Whether this can be done says `Files.Clear`: no name on the way
is too long, and nothing on the way is a file. The way is opened as far as it is clear, also where it is not
clear to its end, and nothing else changes (`Files.made_ensureDirectories`). So files stay as they are, and what
is clear for one path stays so while directories are made for another.
-/

set_option autoImplicit false

namespace SimpleBinary.Files

/-- Whether a file stands at a location. -/
def IsFile (f : Files) (here : Location) : Prop :=
  ∃ text, f.find? here = some (.file text)

/-- Whether directories can be made all along some names: each is short, and none leads to a file. -/
def Clear (f : Files) : Location → List Text → Prop
  | here, [] => ¬ f.IsFile here
  | here, name :: rest => ¬ f.IsFile here ∧ IsShort name ∧ f.Clear (here.enter name) rest

/-- Whether a location is one of those that a path leads to while it is clear. -/
def Opens (f : Files) (p : Path) (l : Location) : Prop :=
  ∃ front, front <+: p.parts ∧ f.Clear p.base front ∧ l = p.base.through front

/-- What it means to make a directory, and those above it: the way is opened as far as it is clear, all else is
as before, and there is no fault if all of the way is clear. -/
structure Made (f : Files) (p : Path) (result : Files × Option Fault) : Prop where
  opened : ∀ l, f.Opens p l → result.1.find? l = some .directory
  kept : ∀ l, ¬ f.Opens p l → result.1.find? l = f.find? l
  ended : result.2 = none ↔ f.Clear p.base p.parts

section

variable {f g : Files} {here l : Location} {names front : List Text} {p : Path} {r : Refusal} {text : String}

theorem not_isFile_of_directory (h : f.find? l = some .directory) : ¬ f.IsFile l := by
  rintro ⟨text, htext⟩
  rw [h] at htext
  cases htext

theorem not_isFile_of_none (h : f.find? l = none) : ¬ f.IsFile l := by
  rintro ⟨text, htext⟩
  rw [h] at htext
  cases htext

/-- Names are clear if each of them is short, and no location on the way holds a file. -/
theorem clear_iff : f.Clear here names ↔
    (∀ name ∈ names, IsShort name) ∧ ∀ front, front <+: names → ¬ f.IsFile (here.through front) := by
  induction names generalizing here with
  | nil => simp [Clear]
  | cons name rest ih =>
    rw [Clear, ih, List.forall_mem_cons]
    constructor
    · rintro ⟨hhere, hname, hrest, hfronts⟩
      refine ⟨⟨hname, hrest⟩, fun front hfront => ?_⟩
      cases front with
      | nil => exact hhere
      | cons first front =>
        obtain ⟨rfl, hfirst⟩ := List.cons_prefix_cons.mp hfront
        exact hfronts front hfirst
    · rintro ⟨⟨hname, hrest⟩, hfronts⟩
      refine ⟨hfronts [] List.nil_prefix, hname, hrest, fun front hfront => ?_⟩
      exact hfronts (name :: front) (List.cons_prefix_cons.mpr ⟨rfl, hfront⟩)

theorem clear_path : f.Clear p.base p.parts ↔ (∀ name ∈ p.parts, IsShort name) ∧ ∀ l ∈ p.way, ¬ f.IsFile l := by
  rw [clear_iff]
  refine and_congr_right fun _ => ⟨fun h l hl => ?_, fun h front hfront => h _ (Path.mem_way.mpr ⟨front, hfront, rfl⟩)⟩
  obtain ⟨front, hfront, rfl⟩ := Path.mem_way.mp hl
  exact h front hfront

theorem Clear.short (h : f.Clear here names) : ∀ name ∈ names, IsShort name :=
  (clear_iff.mp h).1

theorem Clear.first (h : f.Clear here names) : ¬ f.IsFile here :=
  (clear_iff.mp h).2 [] List.nil_prefix

theorem Clear.last (h : f.Clear here names) : ¬ f.IsFile (here.through names) :=
  (clear_iff.mp h).2 names List.prefix_rfl

theorem Clear.of_prefix (h : f.Clear here names) (hfront : front <+: names) : f.Clear here front := by
  obtain ⟨hshort, hfiles⟩ := clear_iff.mp h
  exact clear_iff.mpr ⟨fun name hname => hshort name (hfront.subset hname),
    fun first hfirst => hfiles first (hfirst.trans hfront)⟩

/-- What is clear depends on the files on the way only. -/
theorem Clear.congr
    (hfiles : ∀ front, front <+: names → (f.IsFile (here.through front) ↔ g.IsFile (here.through front)))
    (h : f.Clear here names) : g.Clear here names := by
  obtain ⟨hshort, hclear⟩ := clear_iff.mp h
  exact clear_iff.mpr ⟨hshort, fun front hfront hfile => hclear front hfront ((hfiles front hfront).mpr hfile)⟩

theorem Passes.clear (h : f.Passes here names) (hlast : ¬ f.IsFile (here.through names)) : f.Clear here names := by
  induction names generalizing here with
  | nil => exact hlast
  | cons name rest ih => exact ⟨not_isFile_of_directory h.1, h.2.1, ih h.2.2 hlast⟩

/-- Names that are not found lead to where nothing is. -/
theorem follow_notFound (h : f.follow here names = .error .notFound) : ∃ front, front <+: names ∧ front ≠ names ∧
    f.Clear here front ∧ f.find? (here.through front) = none := by
  induction names generalizing here with
  | nil => cases h
  | cons name rest ih =>
    rw [follow] at h
    split at h
    · rename_i hhere
      split at h
      · cases h
      · rename_i hshort
        obtain ⟨front, hfront, hne, hclear, hnone⟩ := ih h
        refine ⟨name :: front, List.cons_prefix_cons.mpr ⟨rfl, hfront⟩, by simpa using hne, ?_, hnone⟩
        exact ⟨not_isFile_of_directory hhere, Nat.le_of_not_lt hshort, hclear⟩
    · cases h
    · rename_i hhere
      exact ⟨[], List.nil_prefix, by simp, not_isFile_of_none hhere, hhere⟩

/-- Names that are refused otherwise are not clear, and they are refused where they are no longer clear. -/
theorem follow_refused (h : f.follow here names = .error r) (hr : r ≠ .notFound) : ¬ f.Clear here names ∧
    ∀ front, front <+: names → f.Clear here front → f.find? (here.through front) = some .directory := by
  induction names generalizing here with
  | nil => cases h
  | cons name rest ih =>
    rw [follow] at h
    split at h
    · rename_i hhere
      split at h
      · rename_i hlong
        -- A name that is too long is not clear, so nothing in front of it but the start is.
        refine ⟨fun hclear => absurd hclear.2.1 (Nat.not_le_of_gt hlong), fun front hfront hclear => ?_⟩
        cases front with
        | nil => exact hhere
        | cons first front =>
          obtain ⟨rfl, -⟩ := List.cons_prefix_cons.mp hfront
          exact absurd hclear.2.1 (Nat.not_le_of_gt hlong)
      · -- A name that can be entered leaves it to those behind it.
        obtain ⟨hnot, hopened⟩ := ih h
        refine ⟨fun hclear => hnot hclear.2.2, fun front hfront hclear => ?_⟩
        cases front with
        | nil => exact hhere
        | cons first front =>
          obtain ⟨hfirst, hrests⟩ := List.cons_prefix_cons.mp hfront
          subst hfirst
          exact hopened front hrests hclear.2.2
    · rename_i text hhere
      exact ⟨fun hclear => hclear.1 ⟨text, hhere⟩, fun front _ hclear => absurd ⟨text, hhere⟩ hclear.first⟩
    · exact absurd (Except.error.inj h).symm hr

/-! ## One directory -/

theorem opens_location (h : f.Clear p.base p.parts) : f.Opens p p.location :=
  ⟨p.parts, List.prefix_rfl, h, rfl⟩

theorem not_isFile_of_opens (h : f.Opens p l) : ¬ f.IsFile l := by
  obtain ⟨front, -, hclear, rfl⟩ := h
  exact hclear.last

/-- Where a path can be followed, all that it opens is there, but for its end. -/
theorem Passes.opens (h : f.Passes p.base p.parts) (hl : f.Opens p l) :
    f.find? l = some .directory ∨ l = p.location ∧ f.Clear p.base p.parts := by
  obtain ⟨front, hfront, hclear, rfl⟩ := hl
  by_cases hne : front = p.parts
  · subst hne
    exact .inr ⟨rfl, hclear⟩
  · exact .inl (h.directory hfront hne)

theorem made_unchanged {fault : Option Fault} (hopens : ∀ l, f.Opens p l → f.find? l = some .directory)
    (hended : fault = none ↔ f.Clear p.base p.parts) : f.Made p (f, fault) :=
  ⟨hopens, fun _ _ => rfl, hended⟩

/-- **One directory is made** where those above it are there. -/
theorem made_ensureDirectory (hrefusal : p.refusal? = none) (hfound : f.follow p.base p.parts ≠ .error .notFound) :
    f.Made p (f.ensureDirectory p) := by
  have hlocate : f.locate p = f.follow p.base p.parts := by rw [locate_eq, hrefusal]
  cases hfollow : f.follow p.base p.parts with
  | error r =>
    have hr : r ≠ .notFound := fun heq => hfound (heq ▸ hfollow)
    rw [ensureDirectory_of_error (hlocate.trans hfollow)]
    obtain ⟨hnot, hopened⟩ := follow_refused hfollow hr
    refine made_unchanged ?_ (by simpa using hnot)
    rintro l ⟨front, hfront, hclear, rfl⟩
    exact hopened front hfront hclear
  | ok here =>
    obtain ⟨hpasses, rfl⟩ := follow_ok.mp hfollow
    have hhere : f.locate p = .ok p.location := hlocate.trans hfollow
    rw [ensureDirectory_of_located hhere]
    cases hentry : f.find? p.location with
    | none =>
      -- The new directory is the only entry that changes, and the last one that is opened.
      have hclear : f.Clear p.base p.parts := hpasses.clear (not_isFile_of_none hentry)
      have hput (l : Location) : (f.put p.location .directory).find? l =
          if l = p.location then some .directory else f.find? l :=
        find?_put (by simp [hentry])
      refine ⟨fun l hl => ?_, fun l hl => ?_, by simpa using hclear⟩
      · obtain hthere | ⟨rfl, -⟩ := hpasses.opens hl
        · rw [hput, hthere, ite_self]
        · rw [hput, if_pos rfl]
      · rw [hput, if_neg]
        rintro rfl
        exact hl (opens_location hclear)
    | some entry =>
      cases entry with
      | directory =>
        have hclear : f.Clear p.base p.parts := hpasses.clear (not_isFile_of_directory hentry)
        refine made_unchanged (fun l hl => ?_) (by simpa using hclear)
        obtain hthere | ⟨rfl, -⟩ := hpasses.opens hl
        · exact hthere
        · exact hentry
      | file text =>
        have hnot : ¬ f.Clear p.base p.parts := fun hclear => hclear.last ⟨text, hentry⟩
        refine made_unchanged (fun l hl => ?_) (by simpa using hnot)
        obtain hthere | ⟨-, hclear⟩ := hpasses.opens hl
        · exact hthere
        · exact absurd hclear hnot

/-! ## All directories of a path -/

theorem Made.isFile_iff {result : Files × Option Fault} (h : f.Made p result) :
    result.1.IsFile l ↔ f.IsFile l := by
  by_cases hl : f.Opens p l
  · exact iff_of_false (not_isFile_of_directory (h.opened l hl)) (not_isFile_of_opens hl)
  · rw [IsFile, IsFile, h.kept l hl]

theorem Made.clear_iff {result : Files × Option Fault} (h : f.Made p result) :
    result.1.Clear here names ↔ f.Clear here names :=
  ⟨Clear.congr fun _ _ => h.isFile_iff, Clear.congr fun _ _ => h.isFile_iff.symm⟩

theorem Made.opens_iff {q : Path} {result : Files × Option Fault} (h : f.Made p result) :
    result.1.Opens q l ↔ f.Opens q l := by
  simp only [Opens, h.clear_iff]

/-- A path opens what that of the directory above opens, and its own end if it is clear. -/
theorem opens_parent (h : p.parts ≠ []) (hl : f.Opens p l) :
    f.Opens p.parent l ∨ l = p.location ∧ f.Clear p.base p.parts := by
  obtain ⟨front, hfront, hclear, rfl⟩ := hl
  rw [← List.dropLast_append_getLast h, List.prefix_concat_iff] at hfront
  obtain rfl | hfront := hfront
  · rw [List.dropLast_append_getLast h] at hclear ⊢
    exact .inr ⟨rfl, hclear⟩
  · exact .inl ⟨front, hfront, hclear, rfl⟩

theorem Opens.of_parent (h : f.Opens p.parent l) : f.Opens p l := by
  obtain ⟨front, hfront, hclear, rfl⟩ := h
  exact ⟨front, hfront.trans (List.dropLast_prefix _), hclear, rfl⟩

/-- Once the directory above is made, the path is found. -/
theorem Made.found {result : Files × Option Fault} (h : f.Made p.parent result) :
    result.1.follow p.base p.parts ≠ .error .notFound := by
  intro hmissing
  obtain ⟨front, hfront, hne, hclear, hnone⟩ := follow_notFound hmissing
  have hparts : p.parts ≠ [] := by
    rintro hnil
    rw [hnil] at hfront hne
    exact hne (List.prefix_nil.mp hfront)
  have habove : front <+: p.parts.dropLast := by
    rw [← List.dropLast_append_getLast hparts, List.prefix_concat_iff,
      List.dropLast_append_getLast hparts] at hfront
    exact hfront.resolve_left hne
  have hthere : result.1.find? (p.base.through front) = some .directory :=
    h.opened _ ⟨front, habove, h.clear_iff.mp hclear, rfl⟩
  rw [hnone] at hthere
  cases hthere

theorem makeDirectory_notFound : f.makeDirectory p = .error .notFound ↔ f.locate p = .error .notFound := by
  cases hlocate : f.locate p with
  | error r => rw [makeDirectory_of_error hlocate, Except.error.injEq, Except.error.injEq]
  | ok here =>
    rw [makeDirectory_of_located hlocate]
    cases f.find? here <;> simp

theorem ensureDirectories_of_found (h : f.locate p ≠ .error .notFound) :
    f.ensureDirectories p = f.ensureDirectory p := by
  rw [ensureDirectories]
  split
  · rename_i hmissing
    exact absurd (makeDirectory_notFound.mp hmissing) h
  · rfl

theorem ensureDirectories_of_missing (h : f.locate p = .error .notFound) (hparts : p.parts ≠ []) :
    f.ensureDirectories p = match f.ensureDirectories p.parent with
      | (g, none) => g.ensureDirectory p
      | (g, some fault) => (g, some fault) := by
  rw [ensureDirectories, makeDirectory_notFound.mpr h]
  exact if_neg (by simpa using hparts)

/-- **All directories of a path are made** as far as the path is clear, if it is not refused at once. -/
theorem made_ensureDirectories (f : Files) (hrefusal : p.refusal? = none) : f.Made p (f.ensureDirectories p) := by
  -- The induction is on the names. Only where they are not found the directory above is made first.
  induction hcount : p.parts.length using Nat.strong_induction_on generalizing p with
  | _ count ih =>
    subst hcount
    have hlocate : f.locate p = f.follow p.base p.parts := by rw [locate_eq, hrefusal]
    by_cases hmissing : f.follow p.base p.parts = .error .notFound
    · have hparts : p.parts ≠ [] := by
        intro hnil
        rw [hnil] at hmissing
        cases hmissing
      have hshorter : p.parent.parts.length < p.parts.length := by
        rw [Path.parent, List.length_dropLast]
        exact Nat.sub_lt (List.length_pos_iff.mpr hparts) Nat.one_pos
      have habove := ih _ hshorter (Path.refusal?_parent hrefusal) rfl
      rw [ensureDirectories_of_missing (hlocate.trans hmissing) hparts]
      generalize f.ensureDirectories p.parent = result at habove
      obtain ⟨g, fault⟩ := result
      cases fault with
      | none =>
        have hmade : g.Made p (g.ensureDirectory p) := made_ensureDirectory hrefusal habove.found
        refine ⟨fun l hl => hmade.opened l (habove.opens_iff.mpr hl), fun l hl => ?_,
          hmade.ended.trans habove.clear_iff⟩
        rw [hmade.kept l fun hopens => hl (habove.opens_iff.mp hopens)]
        exact habove.kept l fun hopens => hl hopens.of_parent
      | some fault =>
        have hnot : ¬ f.Clear p.base p.parts := fun hclear => by
          cases habove.ended.mpr (hclear.of_prefix (List.dropLast_prefix _))
        refine ⟨fun l hl => ?_, fun l hl => habove.kept l fun hopens => hl hopens.of_parent, by simpa using hnot⟩
        obtain hopens | ⟨-, hclear⟩ := opens_parent hparts hl
        · exact habove.opened l hopens
        · exact absurd hclear hnot
    · rw [ensureDirectories_of_found (hlocate ▸ hmissing)]
      exact made_ensureDirectory hrefusal hmissing

/-- Where a path cannot be followed, other than for a name that is not there, nothing is made. -/
theorem ensureDirectories_of_error (h : f.locate p = .error r) (hr : r ≠ .notFound) :
    f.ensureDirectories p = (f, some (r.fault p)) := by
  have hfound : f.locate p ≠ .error .notFound := by
    rw [h]
    exact fun heq => hr (Except.error.inj heq)
  rw [ensureDirectories_of_found hfound, ensureDirectory_of_error h]

/-- A path that is refused at once is refused where its directories are to be made. -/
theorem ensureDirectories_of_refusal (h : p.refusal? = some r) : f.ensureDirectories p = (f, some (r.fault p)) := by
  refine ensureDirectories_of_error (locate_of_refusal h) ?_
  unfold Path.refusal? at h
  split at h
  · rintro rfl
    cases h
  · split at h
    · rintro rfl
      cases h
    · split at h
      · rintro rfl
        cases h
      · cases h

/-- Whether a fault is the refusal of a path, or of one above it. -/
def IsRefusal (p : Path) (fault : Fault) : Prop :=
  ∃ r q, q.start = p.start ∧ q.parts <+: p.parts ∧ fault = Refusal.fault r q

theorem isRefusal_ensureDirectory {fault : Fault} (h : (f.ensureDirectory p).2 = some fault) :
    IsRefusal p fault := by
  unfold ensureDirectory at h
  split at h
  · cases h
  · rename_i r _
    dsimp only at h
    split at h
    · cases h
    · exact ⟨r, p, rfl, List.prefix_rfl, (Option.some.inj h).symm⟩

/-- Where directories cannot be made, one of them is refused. -/
theorem isRefusal_ensureDirectories {fault : Fault} (h : (f.ensureDirectories p).2 = some fault) :
    IsRefusal p fault := by
  induction hcount : p.parts.length using Nat.strong_induction_on generalizing p with
  | _ count ih =>
    subst hcount
    by_cases hmissing : f.locate p = .error .notFound
    · by_cases hparts : p.parts = []
      · rw [ensureDirectories, makeDirectory_notFound.mpr hmissing] at h
        simp only [hparts, List.isEmpty_nil, if_true] at h
        exact ⟨.notFound, p, rfl, List.prefix_rfl, (Option.some.inj h).symm⟩
      · have hshorter : p.parent.parts.length < p.parts.length := by
          rw [Path.parent, List.length_dropLast]
          exact Nat.sub_lt (List.length_pos_iff.mpr hparts) Nat.one_pos
        rw [ensureDirectories_of_missing hmissing hparts] at h
        split at h
        · exact isRefusal_ensureDirectory h
        · rename_i heq
          obtain ⟨r, q, hstart, hprefix, hfault⟩ := ih _ hshorter (heq ▸ h) rfl
          exact ⟨r, q, hstart, hprefix.trans (List.dropLast_prefix _), hfault⟩
    · rw [ensureDirectories_of_found hmissing] at h
      exact isRefusal_ensureDirectory h

theorem mem_way_of_opens (h : f.Opens p l) : l ∈ p.way := by
  obtain ⟨front, hfront, -, rfl⟩ := h
  exact Path.mem_way.mpr ⟨front, hfront, rfl⟩

/-- Directories are made to the same extent wherever the files on the way are the same. -/
theorem Made.agrees {ofF ofG : Files × Option Fault} (hf : f.Made p ofF) (hg : g.Made p ofG)
    (hway : ∀ l ∈ p.way, f.IsFile l ↔ g.IsFile l) : (ofF.2 = none ↔ ofG.2 = none) ∧
      ∀ l, (ofF.1.find? l = f.find? l ∧ ofG.1.find? l = g.find? l) ∨
        ofF.1.find? l = ofG.1.find? l ∧ l ∈ p.way ∧ ofG.1.find? l = some .directory ∧ ¬ g.IsFile l := by
  have hclear {names : List Text} (hnames : names <+: p.parts) : f.Clear p.base names ↔ g.Clear p.base names := by
    have hmem {front : List Text} (hfront : front <+: names) : p.base.through front ∈ p.way :=
      Path.mem_way.mpr ⟨front, hfront.trans hnames, rfl⟩
    exact ⟨Clear.congr fun _ hfront => hway _ (hmem hfront),
      Clear.congr fun _ hfront => (hway _ (hmem hfront)).symm⟩
  have hopens (l : Location) : f.Opens p l ↔ g.Opens p l := by
    constructor
    · rintro ⟨front, hfront, hfrontClear, rfl⟩
      exact ⟨front, hfront, (hclear hfront).mp hfrontClear, rfl⟩
    · rintro ⟨front, hfront, hfrontClear, rfl⟩
      exact ⟨front, hfront, (hclear hfront).mpr hfrontClear, rfl⟩
  refine ⟨hf.ended.trans ((hclear List.prefix_rfl).trans hg.ended.symm), fun l => ?_⟩
  by_cases hl : g.Opens p l
  · have hdirectory := hg.opened l hl
    exact .inr ⟨(hf.opened l ((hopens l).mpr hl)).trans hdirectory.symm, mem_way_of_opens hl, hdirectory,
      not_isFile_of_opens hl⟩
  · exact .inl ⟨hf.kept l fun h => hl ((hopens l).mp h), hg.kept l hl⟩

/-! ## Entries of a directory that is there -/

/-- Whether a directory is there, with all directories on the way to it. -/
structure IsOpen (f : Files) (d : Path) : Prop where
  short : ∀ name ∈ d.parts, IsShort name
  directory : ∀ l ∈ d.way, f.find? l = some .directory

theorem IsOpen.passes (h : f.IsOpen p) : f.Passes p.base p.parts :=
  passes_of_directories h.short fun front hfront _ => h.directory _ (Path.mem_way.mpr ⟨front, hfront, rfl⟩)

theorem IsOpen.mono (hmore : ∀ l, f.find? l = some .directory → g.find? l = some .directory)
    (h : f.IsOpen p) : g.IsOpen p :=
  ⟨h.short, fun l hl => hmore l (h.directory l hl)⟩

/-- The working directory is there. -/
theorem isOpen_workingDirectory (f : Files) : f.IsOpen {} := by
  refine ⟨fun name hname => absurd hname List.not_mem_nil, fun l hl => ?_⟩
  obtain ⟨front, hfront, rfl⟩ := Path.mem_way.mp hl
  rw [List.prefix_nil.mp hfront]
  exact f.find?_base {}

/-- A directory is there as before once a file is put where none is. -/
theorem IsOpen.put (h : f.IsOpen p) (hl : f.find? l ≠ some .directory) : (f.put l (.file text)).IsOpen p := by
  refine h.mono fun l' hdirectory => ?_
  rw [find?_put hl, if_neg]
  · exact hdirectory
  · rintro rfl
    exact hl hdirectory

/-- A directory that has been made is there. -/
theorem Made.isOpen {result : Files × Option Fault} (h : f.Made p result) (hended : result.2 = none) :
    result.1.IsOpen p := by
  have hclear := h.ended.mp hended
  refine ⟨hclear.short, fun l hl => ?_⟩
  obtain ⟨front, hfront, rfl⟩ := Path.mem_way.mp hl
  exact h.opened _ ⟨front, hfront, hclear.of_prefix hfront, rfl⟩

/-- Where directories are made without a fault, the directory is there. -/
theorem isOpen_ensureDirectories (h : f.ensureDirectories p = (g, none)) : g.IsOpen p := by
  cases hrefusal : p.refusal? with
  | some r =>
    rw [ensureDirectories_of_refusal hrefusal] at h
    cases h
  | none =>
    have hmade : f.Made p (g, none) := h ▸ f.made_ensureDirectories hrefusal
    exact hmade.isOpen rfl

/-- Where an entry of a directory is found does not depend on the files, once the directory is there. -/
theorem IsOpen.locate_child (h : f.IsOpen p) (hg : g.IsOpen p) (name : Text) :
    f.locate (p.child name) = g.locate (p.child name) := by
  have hfollow {f : Files} (h : f.IsOpen p) : f.follow p.base (p.parts ++ [name]) =
      if nameLimit < name.nameBytes.length then .error .tooLong else .ok (p.location.enter name) := by
    have hdirectory : f.find? (p.base.through p.parts) = some .directory := h.directory _ p.location_mem_way
    rw [h.passes.follow_append, follow, hdirectory]
    rfl
  rw [locate_eq, locate_eq]
  cases (p.child name).refusal? with
  | some r => rfl
  | none => exact (hfollow h).trans (hfollow hg).symm

/-- An entry of a directory that is there is found, if its path is not refused and its name is short. -/
theorem IsOpen.locate_entry {name : Text} (h : f.IsOpen p) (hrefusal : (p.child name).refusal? = none)
    (hshort : IsShort name) : f.locate (p.child name) = .ok (p.child name).location :=
  locate_ok.mpr ⟨hrefusal, passes_concat.mpr ⟨h.passes, h.directory _ p.location_mem_way, hshort⟩, rfl⟩

/-! ## Files that are read -/

theorem read_ok : f.read p = .ok text ↔
    f.locate p = .ok p.location ∧ f.find? p.location = some (.file text) := by
  cases hlocate : f.locate p with
  | error r =>
    rw [read_of_error hlocate]
    simp
  | ok here =>
    obtain ⟨-, -, rfl⟩ := locate_ok.mp hlocate
    rw [read_of_located hlocate]
    cases f.find? p.location with
    | none => simp
    | some entry => cases entry <;> simp

/-- What is read depends on where the path leads and on what stands there. -/
theorem read_congr (hlocate : f.locate p = g.locate p) (hentry : f.find? p.location = g.find? p.location) :
    f.read p = g.read p := by
  cases hfound : f.locate p with
  | error r => rw [read_of_error hfound, read_of_error (hlocate.symm.trans hfound)]
  | ok here =>
    obtain ⟨-, -, rfl⟩ := locate_ok.mp hfound
    rw [read_of_located hfound, read_of_located (hlocate.symm.trans hfound), hentry]

/-- Whether the file at a path has a text. -/
def Holds (f : Files) (p : Path) (t : Text) : Prop :=
  ∃ text, Text.ofString text = t ∧ f.read p = .ok text

/-- A file has its text also where there are more directories and the file is still there. -/
theorem Holds.mono {t : Text} (hmore : ∀ l, f.find? l = some .directory → g.find? l = some .directory)
    (hentry : g.find? p.location = f.find? p.location) (h : f.Holds p t) : g.Holds p t := by
  obtain ⟨text, htext, hread⟩ := h
  obtain ⟨hlocate, hfile⟩ := read_ok.mp hread
  exact ⟨text, htext, read_ok.mpr ⟨locate_mono hmore hlocate, hentry.trans hfile⟩⟩

/-! ## Files that are written -/

/-- A text is written to a file in the same way wherever its directory is there and the same stands in its
place: it is refused, or is put there. -/
theorem IsOpen.writeText (h : f.IsOpen p) (hg : g.IsOpen p) (name t : Text)
    (hplace : f.find? (p.child name).location = g.find? (p.child name).location) :
    (∃ fault, f.writeText (p.child name) t = (f, some fault) ∧ g.writeText (p.child name) t = (g, some fault)) ∨
    ∃ text fault, f.find? (p.child name).location ≠ some .directory ∧
      f.writeText (p.child name) t = (f.put (p.child name).location (.file text), fault) ∧
      g.writeText (p.child name) t = (g.put (p.child name).location (.file text), fault) := by
  have hsame := h.locate_child hg name
  cases hlocate : f.locate (p.child name) with
  | error r => exact .inl ⟨_, writeText_of_error t hlocate, writeText_of_error t (hsame.symm.trans hlocate)⟩
  | ok here =>
    obtain ⟨-, -, rfl⟩ := locate_ok.mp hlocate
    rw [writeText_of_located t hlocate, writeText_of_located t (hsame.symm.trans hlocate), ← hplace]
    by_cases hdirectory : f.find? (p.child name).location = some .directory
    · simp only [if_pos hdirectory]
      exact .inl ⟨_, rfl, rfl⟩
    · simp only [if_neg hdirectory]
      exact .inr ⟨_, _, hdirectory, rfl, rfl⟩

/-- A text that is written without a fault is what the file holds. -/
theorem writeText_ok {t : Text} (h : f.writeText p t = (g, none)) : ∃ text, Text.ofString text = t ∧
    f.locate p = .ok p.location ∧ f.find? p.location ≠ some .directory ∧ g = f.put p.location (.file text) := by
  cases hlocate : f.locate p with
  | error r =>
    rw [writeText_of_error t hlocate] at h
    cases h
  | ok here =>
    obtain ⟨-, -, rfl⟩ := locate_ok.mp hlocate
    rw [writeText_of_located t hlocate] at h
    split at h
    · cases h
    · rename_i hentry
      obtain ⟨rfl, hfault⟩ := Prod.mk.inj h
      have hplain : t.isPlain = true := Text.unencodable?_eq_none.mp (Option.map_eq_none_iff.mp hfault)
      refine ⟨t.plain, Text.ofString_plain hplain, rfl, hentry, ?_⟩
      rw [Text.toString?, if_pos hplain, Option.getD_some]

/-- A text that can be encoded is written wherever its path leads to, if that is no directory. -/
theorem writeText_of_plain {t : Text} (hlocate : f.locate p = .ok p.location)
    (hentry : f.find? p.location ≠ some .directory) (hplain : t.isPlain = true) :
    f.writeText p t = (f.put p.location (.file t.plain), none) := by
  rw [writeText_of_located t hlocate, if_neg hentry, Text.unencodable?_eq_none.mpr hplain, Text.toString?,
    if_pos hplain]
  rfl

end

end SimpleBinary.Files
