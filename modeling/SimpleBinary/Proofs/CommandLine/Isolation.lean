import SimpleBinary.Proofs.CommandLine.Overwriting

/-!
Inputs that are worked on as if each were alone.

A run hands the files that one input leaves to the next one, and nothing else. So an input does in a run what it
does alone if it reads the same when its turn comes, and if the directory of its package and the places of its
modules are its own: then what the inputs leave in the files is what each of them leaves alone, put together
(`Combines`, `run_isolated`). Directories that lead to several packages may be shared. Names of packages have no
points, so that no module stands on the way to another package, unless the name of one of them begins with a slash
and that of the other does not (`IsTarget.not_mem_way`). That the packages have different directories is not
enough: a module of one can stand on the way to another input (`run_disturbs`).
-/

set_option autoImplicit false

namespace SimpleBinary

/-- The name of a package has no point in it. -/
theorem Schema.point_not_mem_packageName (s : Schema) : .char '.' ∉ s.packageName := by
  intro h
  obtain ⟨p, -, hp⟩ := List.mem_map.mp h
  split at hp
  · cases hp
  · rename_i hnot
    rw [hp] at hnot
    exact hnot rfl

namespace CommandLine

open Report

/-- Whether the name of a package begins with a slash, so that its directory is not below that of the output. -/
def IsRooted (s : Schema) : Prop :=
  (Path.ofText s.packageName).isAbsolute = true

/-- Whether the packages of two inputs are apart: they have different directories, and if the name of one of them
begins with a slash and that of the other does not, no module of one is written to where the way to the directory
of the other leads. -/
def Apart (o : Options) (f : Files) (p q : Path) : Prop :=
  ∀ s s', schemaAt f o.package p = .ok s → schemaAt f o.package q = .ok s' →
    (directoryOf o s).location ≠ (directoryOf o s').location ∧
    (¬ (IsRooted s ↔ IsRooted s') →
      (∀ l, IsTarget o s l → l ∉ (directoryOf o s').way) ∧ ∀ l, IsTarget o s' l → l ∉ (directoryOf o s).way)

/-- Whether a report is that of several inputs, each of which does what it does alone. -/
structure Combines (o : Options) (f : Files) (paths : List Path) (r : Report) : Prop where
  printed : r.printed = paths.flatMap fun p => (turn o f p).printed
  logged : ∃ logs, r.logged = logs.flatten ∧
    List.Forall₂ (fun log p => SameLog o f p log (turn o f p).logged) logs paths
  hasFailed : r.hasFailed = paths.any fun p => (turn o f p).hasFailed
  /-- What an input changes alone is as it leaves it. -/
  kept : ∀ p ∈ paths, ∀ l, (turn o f p).files.find? l ≠ f.find? l →
    r.files.find? l = (turn o f p).files.find? l
  /-- Where its modules are written to stands what it leaves there alone. -/
  targets : ∀ p ∈ paths, ∀ s, schemaAt f o.package p = .ok s → ∀ l, IsTarget o s l →
    r.files.find? l = (turn o f p).files.find? l
  /-- Nothing else changes. -/
  changed : ∀ l, r.files.find? l ≠ f.find? l → ∃ p ∈ paths, (turn o f p).files.find? l ≠ f.find? l

/-! ## Modules and the ways to packages -/

section

variable {o : Options} {s s' : Schema} {d d' : Path} {l : Location} {m : String}

/-- No module stands where a path goes on by names that have no points. -/
theorem place_not_mem_way {common below below' : List Text} (hbase : d.base = d'.base)
    (hparts : d.parts = common ++ below) (hparts' : d'.parts = common ++ below')
    (hpoints : ∀ name ∈ below', .char '.' ∉ name) (h : place d m ∉ d.way) : place d m ∉ d'.way := by
  intro hmem
  obtain ⟨front, hfront, hl⟩ := Path.mem_way.mp hmem
  rw [hparts'] at hfront
  have hnot : ¬ front <+: common := fun hcommon =>
    h (Path.mem_way.mpr ⟨front, hparts ▸ hcommon.trans (List.prefix_append ..), hbase ▸ hl⟩)
  obtain hcommon | ⟨more, rfl⟩ := List.prefix_or_prefix_of_prefix hfront (List.prefix_append common below')
  · exact hnot hcommon
  · -- Behind what both have in common the way goes on by names without points, and modules have one.
    rw [List.prefix_append_right_inj] at hfront
    obtain rfl | ⟨init, name, rfl⟩ := List.eq_nil_or_concat' more
    · exact hnot (by rw [List.append_nil])
    · have hname : .char '.' ∉ name := hpoints name (hfront.subset (by simp))
      have hne : name ≠ Location.twoPoints := by
        rintro rfl
        exact hname (by decide)
      rw [← List.append_assoc, Location.through_concat, Location.enter, if_neg hne, place_eq] at hl
      have hlast := List.singleton_inj.mp (List.append_inj' hl rfl).2
      have hpoint : CodePoint.char '.' ∈ name.asName := by
        rw [← hlast]
        exact List.mem_append_right _ (by decide)
      exact hname (Text.point_of_mem_asName hpoint)

theorem points_of_package {name : Text} (h : name ∈ (Path.ofText s.packageName).parts) : .char '.' ∉ name := by
  intro hpoint
  obtain ⟨hmem, -⟩ := List.mem_filter.mp h
  exact s.point_not_mem_packageName (Text.mem_of_mem_split hmem hpoint)

/-- **No module stands on the way to another package**, unless the name of one of them begins with a slash, and
that of the other does not. -/
theorem IsTarget.not_mem_way (h : IsTarget o s l) (hrooted : IsRooted s ↔ IsRooted s') :
    l ∉ (directoryOf o s').way := by
  obtain ⟨⟨m, -, rfl⟩, hway⟩ := h
  by_cases hrooted' : IsRooted s'
  · have hd : directoryOf o s = Path.ofText s.packageName := if_pos (hrooted.mpr hrooted')
    have hd' : directoryOf o s' = Path.ofText s'.packageName := if_pos hrooted'
    rw [hd] at hway ⊢
    rw [hd']
    refine place_not_mem_way ?_ (List.nil_append _).symm (List.nil_append _).symm (fun _ => points_of_package) hway
    have hbase : (Path.ofText s.packageName).base = [Location.slash] := if_pos (hrooted.mpr hrooted')
    have hbase' : (Path.ofText s'.packageName).base = [Location.slash] := if_pos hrooted'
    rw [hbase, hbase']
  · have hd : directoryOf o s = _ := if_neg fun h => hrooted' (hrooted.mp h)
    have hd' : directoryOf o s' = _ := if_neg hrooted'
    refine place_not_mem_way ?_ (congrArg Path.parts hd) (congrArg Path.parts hd') (fun _ => points_of_package) hway
    rw [hd, hd']
    rfl

end

/-! ## Inputs that are apart -/

section

variable {o : Options} {f : Files} {p q : Path} {paths : List Path} {r : Report} {s : Schema} {l : Location}

theorem Apart.symm (h : Apart o f p q) : Apart o f q p := fun s s' hs hs' => by
  obtain ⟨hne, htargets⟩ := h s' s hs' hs
  exact ⟨Ne.symm hne, fun hrooted => (htargets fun hiff => hrooted hiff.symm).symm⟩

/-- No module of one of two inputs that are apart is written to where the way to the package of the other leads. -/
theorem Apart.targets (h : Apart o f p q) {s' : Schema} (hs : schemaAt f o.package p = .ok s)
    (hs' : schemaAt f o.package q = .ok s') :
    (∀ l, IsTarget o s l → l ∉ (directoryOf o s').way) ∧ ∀ l, IsTarget o s' l → l ∉ (directoryOf o s).way := by
  by_cases hrooted : IsRooted s ↔ IsRooted s'
  · exact ⟨fun l hl => hl.not_mem_way hrooted, fun l hl => hl.not_mem_way hrooted.symm⟩
  · exact (h s s' hs hs').2 hrooted

/-- What is loaded depends on what is read. -/
theorem schemaAt_congr {g : Files} {package : Option String} (h : g.read p = f.read p) :
    schemaAt g package p = schemaAt f package p := by
  rw [schemaAt, schemaAt, h]

/-- What an input changes, it changes on the way to its package or in the places of its modules. -/
theorem exists_changes (h : (turn o f p).files.find? l ≠ f.find? l) :
    ∃ s, schemaAt f o.package p = .ok s ∧ Changes o s f (turn o f p).files l := by
  cases hschema : schemaAt f o.package p with
  | error fault =>
    rw [turn_of_error hschema] at h
    exact absurd rfl h
  | ok s => exact ⟨s, rfl, (turn_changes hschema l).resolve_left h⟩

/-- What two inputs that are apart write to, no two of their modules share. -/
theorem Apart.disjoint (h : Apart o f p q) {s' : Schema} (hs : schemaAt f o.package p = .ok s)
    (hs' : schemaAt f o.package q = .ok s') (hp : IsTarget o s l) (hq : IsTarget o s' l) : False := by
  obtain ⟨⟨m, -, rfl⟩, -⟩ := hp
  obtain ⟨⟨m', -, hplace⟩, -⟩ := hq
  exact (h s s' hs hs').1 (place_inj.mp hplace).1

/-- Two inputs that are apart change the same location only where both make a directory. -/
theorem Apart.entry_eq (h : Apart o f p q) (hs : schemaAt f o.package p = .ok s)
    (hp : Changes o s f (turn o f p).files l) (hq : (turn o f q).files.find? l ≠ f.find? l) :
    (turn o f p).files.find? l = (turn o f q).files.find? l := by
  obtain ⟨s', hs', hchanges⟩ := exists_changes hq
  obtain ⟨hfirst, hsecond⟩ := h.targets hs hs'
  obtain ⟨hway, hdirectory, -⟩ | ⟨htarget, -⟩ := hp
  · obtain ⟨-, hdirectory', -⟩ | ⟨htarget', -⟩ := hchanges
    · exact hdirectory.trans hdirectory'.symm
    · exact absurd hway (hsecond l htarget')
  · obtain ⟨hway, -⟩ | ⟨htarget', -⟩ := hchanges
    · exact absurd hway (hfirst l htarget)
    · exact (h.disjoint hs hs' htarget htarget').elim

/-- What has been changed so far has been changed by one of the inputs. -/
theorem Combines.exists_changes (h : Combines o f paths r) (hl : r.files.find? l ≠ f.find? l) :
    ∃ q ∈ paths, ∃ s, schemaAt f o.package q = .ok s ∧ Changes o s f r.files l := by
  obtain ⟨q, hq, hchanged⟩ := h.changed l hl
  obtain ⟨s, hs, hchanges⟩ := CommandLine.exists_changes hchanged
  refine ⟨q, hq, s, hs, ?_⟩
  simpa only [Changes, Files.IsFile, h.kept q hq l hchanged] using hchanges

/-- On the way to the directory of one more package the files are the same as before. -/
theorem Combines.isFile_iff (h : Combines o f paths r) (hapart : ∀ q ∈ paths, Apart o f q p)
    (hs : schemaAt f o.package p = .ok s) (hl : l ∈ (directoryOf o s).way) : r.files.IsFile l ↔ f.IsFile l := by
  by_cases hsame : r.files.find? l = f.find? l
  · rw [Files.IsFile, Files.IsFile, hsame]
  · obtain ⟨q, hq, s', hs', ⟨-, hdirectory, hnot⟩ | ⟨htarget, -⟩⟩ := h.exists_changes hsame
    · exact iff_of_false (Files.not_isFile_of_directory hdirectory) hnot
    · exact absurd hl (((hapart q hq).targets hs' hs).1 l htarget)

/-- Where the modules of one more package are written to stands the same as before. -/
theorem Combines.entry_target (h : Combines o f paths r) (hapart : ∀ q ∈ paths, Apart o f q p)
    (hs : schemaAt f o.package p = .ok s) (hl : IsTarget o s l) : r.files.find? l = f.find? l := by
  by_contra hne
  obtain ⟨q, hq, s', hs', ⟨hway, -⟩ | ⟨htarget, -⟩⟩ := h.exists_changes hne
  · exact ((hapart q hq).targets hs' hs).2 l hl hway
  · exact (hapart q hq).disjoint hs' hs htarget hl

/-- What one more input does after others is what it does alone. -/
theorem Combines.turn_agrees (h : Combines o f paths r) (hread : r.files.read p = f.read p)
    (hapart : ∀ q ∈ paths, Apart o f q p) :
    (turn o r.files p).printed = (turn o f p).printed ∧ (turn o r.files p).hasFailed = (turn o f p).hasFailed ∧
      SameLog o f p (turn o r.files p).logged (turn o f p).logged ∧
      ∀ l, ((turn o r.files p).files.find? l = r.files.find? l ∧ (turn o f p).files.find? l = f.find? l) ∨
        (turn o r.files p).files.find? l = (turn o f p).files.find? l ∧
          ∃ s, schemaAt f o.package p = .ok s ∧ Changes o s f (turn o f p).files l := by
  have hschema : schemaAt r.files o.package p = schemaAt f o.package p := schemaAt_congr hread
  cases hs : schemaAt f o.package p with
  | error fault =>
    rw [turn_of_error (hschema.trans hs), turn_of_error hs]
    exact ⟨rfl, rfl, .inl rfl, fun _ => .inl ⟨rfl, rfl⟩⟩
  | ok s =>
    obtain ⟨hprinted, hfailed, hlog, hfiles⟩ := CommandLine.turn_agrees (hschema.trans hs) hs
      (fun l hl => h.isFile_iff hapart hs hl) fun l hl => h.entry_target hapart hs hl
    refine ⟨hprinted, hfailed, hlog, fun l => ?_⟩
    obtain hkept | ⟨hsame, hchanges⟩ := hfiles l
    · exact .inl hkept
    · exact .inr ⟨hsame, s, rfl, hchanges⟩

/-- **One more input**: what it does in a run is what it does alone, and what the others have done stays. -/
theorem Combines.concat (h : Combines o f paths r) (hread : r.files.read p = f.read p)
    (hapart : ∀ q ∈ paths, Apart o f q p) : Combines o f (paths ++ [p]) (r.followedBy (turn o r.files p)) := by
  -- At each place the turn changes nothing, here as alone, or it leaves there what it leaves alone.
  obtain ⟨hprinted, hfailed, hlog, hfiles⟩ := h.turn_agrees hread hapart
  refine ⟨?printed, ?logged, ?hasFailed, ?kept, ?targets, ?changed⟩
  case printed => simp [followedBy, h.printed, hprinted]
  case logged =>
    obtain ⟨logs, hlogs, hall⟩ := h.logged
    refine ⟨logs ++ [(turn o r.files p).logged], by simp [followedBy, hlogs], ?_⟩
    exact List.rel_append hall (.cons hlog .nil)
  case hasFailed => simp [followedBy, h.hasFailed, hfailed]
  case kept =>
    intro q hq l hchanged
    obtain ⟨hkept, hkept'⟩ | ⟨hsame, s, hs, hchanges⟩ := hfiles l
    · rcases List.mem_append.mp hq with hq | hq
      · exact hkept.trans (h.kept q hq l hchanged)
      · obtain rfl := List.mem_singleton.mp hq
        exact absurd hkept' hchanged
    · rcases List.mem_append.mp hq with hq | hq
      · exact hsame.trans ((hapart q hq).symm.entry_eq hs hchanges hchanged)
      · obtain rfl := List.mem_singleton.mp hq
        exact hsame
  case targets =>
    intro q hq s hs l hl
    obtain ⟨hkept, hkept'⟩ | ⟨hsame, s', hs', hchanges⟩ := hfiles l
    · rcases List.mem_append.mp hq with hq | hq
      · exact hkept.trans (h.targets q hq s hs l hl)
      · obtain rfl := List.mem_singleton.mp hq
        exact hkept.trans ((h.entry_target hapart hs hl).trans hkept'.symm)
    · rcases List.mem_append.mp hq with hq | hq
      · obtain ⟨hway, -⟩ | ⟨htarget, -⟩ := hchanges
        · exact absurd hway (((hapart q hq).targets hs hs').1 l hl)
        · exact ((hapart q hq).disjoint hs hs' hl htarget).elim
      · obtain rfl := List.mem_singleton.mp hq
        exact hsame
  case changed =>
    intro l hl
    obtain ⟨hkept, -⟩ | ⟨hsame, -⟩ := hfiles l
    · obtain ⟨q, hq, hchanged⟩ := h.changed l (hkept ▸ hl)
      exact ⟨q, List.mem_append_left _ hq, hchanged⟩
    · exact ⟨p, List.mem_append_right _ (List.mem_singleton_self p), hsame ▸ hl⟩

theorem combines_nil (o : Options) (f : Files) : Combines o f [] { files := f } where
  printed := rfl
  logged := ⟨[], rfl, .nil⟩
  hasFailed := rfl
  kept := fun _ hp => absurd hp List.not_mem_nil
  targets := fun _ hp => absurd hp List.not_mem_nil
  changed := fun _ hl => absurd rfl hl

/-- Inputs that are apart do in a run what they do alone. The induction adds one input at the end. -/
theorem combines_upTo
    (hread : ∀ before p after, paths = before ++ p :: after → (upTo o f before).files.read p = f.read p)
    (hapart : paths.Pairwise (Apart o f)) : Combines o f paths (upTo o f paths) := by
  induction paths using List.reverseRecOn with
  | nil => exact combines_nil o f
  | append_singleton rest p ih =>
    obtain ⟨hrest, -, hlast⟩ := List.pairwise_append.mp hapart
    have hbefore := ih (fun before q after hsplit => hread before q (after ++ [p]) (by simp [hsplit])) hrest
    rw [upTo_concat]
    exact hbefore.concat (hread rest p [] rfl) fun q hq => hlast q hq p (List.mem_singleton_self p)

/-- An input that fails is not listed among the modules that are generated. -/
theorem printed_of_failed (h : (turn o f p).hasFailed = true) : (turn o f p).printed = [] := by
  cases hschema : schemaAt f o.package p with
  | error fault => rw [turn_of_error hschema]
  | ok s =>
    obtain ⟨g, fault, hdirectory⟩ : ∃ g fault, f.ensureDirectories (directoryOf o s) = (g, fault) := ⟨_, _, rfl⟩
    cases fault with
    | some fault => rw [turn_of_refused hschema hdirectory]
    | none =>
      rw [turn_of_made hschema hdirectory] at h ⊢
      obtain ⟨hprinted, hfailed⟩ := replay_reports o.isVerbose (directoryOf o s) { files := g } []
        (Package.generate s 1 {}).1.events
      dsimp only at h ⊢
      unfold closing at h ⊢
      split at h
      · exact hprinted
      · exact absurd (h.symm.trans hfailed) (by simp)
      · exact hprinted

/-- **Inputs do not disturb each other.** If each input reads the same when its turn comes as before the run, and
the packages are apart, then a run reports of each input and leaves for it what it does alone, in the order of the
inputs; the code is 1 exactly if one of them fails, and one that fails lists no module. What an input does alone
is the run with the same options and no other input. -/
theorem run_isolated {arguments : List String} {lists : List (List Path)}
    (ho : Options.ofArguments arguments = .ok o) (hin : o.inputs.mapM (schemasOf f) = .ok lists)
    (hread : ∀ before p after, lists.flatten = before ++ p :: after → (upTo o f before).files.read p = f.read p)
    (hapart : lists.flatten.Pairwise (Apart o f)) :
    ∃ r, run arguments f = .ok r ∧ Combines o f lists.flatten r ∧
      (∀ p ∈ lists.flatten, (turn o f p).hasFailed = true → (turn o f p).printed = []) ∧
      (r.code = 1 ↔ ∃ p ∈ lists.flatten, (turn o f p).hasFailed = true) ∧
      ∀ p ∈ lists.flatten, ∀ alone input, Options.ofArguments alone = .ok { o with inputs := [input] } →
        schemasOf f input = .ok [p] → run alone f = .ok (turn o f p) := by
  have hcombines := combines_upTo hread hapart
  refine ⟨_, run_ok.mpr ⟨o, lists, ho, hin, rfl⟩, hcombines, fun p _ => printed_of_failed, ?_, ?_⟩
  · rw [← List.any_eq_true, ← hcombines.hasFailed, code]
    cases (upTo o f lists.flatten).hasFailed <;> simp
  · intro p _ alone input halone hinput
    refine run_ok.mpr ⟨_, [[p]], halone, ?_, rfl⟩
    rw [List.mapM_cons, hinput]
    rfl

/-- No package of a sample has a name that begins with a slash. -/
theorem not_isRooted_sample (h : IsSampleFiles f) (x : Sample) (hs : schemaAt f none x.path = .ok s) :
    ¬ IsRooted s := by
  obtain ⟨s', hs', hschema⟩ := sample_schema h x (.inl rfl)
  obtain rfl := Except.ok.inj (hs.symm.trans hs')
  rw [IsRooted, (generates_of_isSchema hschema).1]
  cases x <;> decide

/-- The samples are apart in packages of their own. -/
theorem sample_apart (h : IsSampleFiles f) : Apart (sampleOptions none) f Sample.sides.path Sample.ticks.path := by
  intro s s' hs hs'
  have hdirectory : directoryOf (sampleOptions none) s = sampleDirectory "desk" :=
    sample_directory h .sides rfl (.inl rfl) hs
  have hdirectory' : directoryOf (sampleOptions none) s' = sampleDirectory "till" :=
    sample_directory h .ticks rfl (.inl rfl) hs'
  rw [hdirectory, hdirectory']
  refine ⟨by decide, fun hrooted => absurd ?_ hrooted⟩
  exact iff_of_false (not_isRooted_sample h .sides hs) (not_isRooted_sample h .ticks hs')

/-- Each sample reads the same after the other one. -/
theorem sample_reads {g : Files} (h : IsSampleFiles f) (hg : IsSampleFiles g) (x : Sample) :
    g.read x.path = f.read x.path := by
  refine Files.read_congr ((sample_locate g x).trans (sample_locate f x).symm) ?_
  rw [show x.path.location = [Text.ofString x.file] by cases x <;> rfl, hg.input, h.input]

/-- Both samples are generated as if each were alone. -/
theorem sample_isolated :
    [Sample.sides.path, Sample.ticks.path].Pairwise (Apart (sampleOptions none) sampleFiles) ∧
      ∃ r, run ["a.json", "b.json", "-o", "out"] sampleFiles = .ok r ∧
        Combines (sampleOptions none) sampleFiles [Sample.sides.path, Sample.ticks.path] r ∧ r.code = 0 := by
  have hsample := isSampleFiles_sampleFiles
  generalize sampleFiles = f at hsample
  have harguments : Options.ofArguments ["a.json", "b.json", "-o", "out"] = .ok (sampleOptions none) := rfl
  obtain ⟨hrun, hlists, hcode⟩ := sample_run hsample (.inl rfl) harguments
  have hapart : [Sample.sides.path, Sample.ticks.path].Pairwise (Apart (sampleOptions none) f) :=
    List.pairwise_pair.mpr (sample_apart hsample)
  have hread : ∀ before p after, [Sample.sides.path, Sample.ticks.path] = before ++ p :: after →
      (upTo (sampleOptions none) f before).files.read p = f.read p := by
    intro before p after hsplit
    rcases before with _ | ⟨first, _ | ⟨second, before⟩⟩
    · rfl
    · obtain ⟨rfl, hrest⟩ := List.cons.inj hsplit
      obtain ⟨rfl, -⟩ := List.cons.inj hrest
      obtain ⟨-, -, -, -, -, -, hfiles⟩ := sample_turn hsample .sides (o := sampleOptions none) rfl (.inl rfl)
      rw [upTo_singleton]
      exact sample_reads hsample hfiles .ticks
    · simp at hsplit
  obtain ⟨r, hr, hcombines, -⟩ := run_isolated harguments hlists hread hapart
  obtain rfl := Except.ok.inj (hrun.symm.trans hr)
  exact ⟨hapart, _, hr, hcombines, hcode⟩

end

/-! ## Inputs that disturb each other -/

/-- The options with inputs and an output directory only. -/
def plainOptions (inputs : List String) (output : String) : Options where
  inputs
  output
  package := none
  isVerbose := false

theorem ofTexts_plain {inputs : List String} (h : ∀ text ∈ inputs, text.toList.head? ≠ some '-')
    (more : List String) : Word.ofTexts (inputs ++ more) = (Word.ofTexts more).map (inputs.map Word.plain ++ ·) := by
  induction inputs with
  | nil => simp
  | cons text rest ih =>
    obtain ⟨htext, hrest⟩ := List.forall_mem_cons.mp h
    have hseparator : text ≠ "--" := by
      rintro rfl
      exact htext rfl
    have hword : Word.ofText text = some (.plain text) := by rw [Word.ofText, if_pos htext]
    rw [List.cons_append, Word.ofTexts, hword, ih hrest]
    · cases Word.ofTexts more <;> rfl
    · exact hseparator

theorem read_plain {d : Draft} (h : d.phase ≠ .after) (inputs : List String) (words : List Word) :
    d.read (inputs.map Word.plain ++ words) =
      { d with inputs := d.inputs ++ inputs, phase := if inputs = [] then d.phase else .inside }.read words := by
  induction inputs generalizing d with
  | nil => simp
  | cons text rest ih =>
    rw [List.map_cons, List.cons_append, Draft.read, Draft.addInput, if_neg h, ih (by simp)]
    simp

/-- Arguments that do not begin with a minus sign are inputs, and the value of the output. -/
theorem options_of_inputs {inputs : List String} {output : String} (hne : inputs ≠ [])
    (h : ∀ text ∈ inputs, text.toList.head? ≠ some '-') (houtput : output.toList.head? ≠ some '-') :
    Options.ofArguments (inputs ++ ["-o", output]) = .ok (plainOptions inputs output) := by
  have hseparator : output ≠ "--" := by
    rintro rfl
    exact houtput rfl
  have hwords : Word.ofTexts ["-o", output] = some [.awaiting [] .output, .plain output] := by
    have hvalue := ofTexts_plain (List.forall_mem_singleton.mpr houtput) []
    rw [List.append_nil] at hvalue
    rw [Word.ofTexts, hvalue]
    · rfl
    · decide
  -- The inputs come before the output, whose value is awaited then.
  have hdraft := read_plain (d := {}) (by simp) inputs [.awaiting [] .output, .plain output]
  rw [if_neg hne] at hdraft
  rw [Options.ofArguments, ofTexts_plain h, hwords]
  dsimp only [Option.map_some]
  rw [hdraft]
  have hread : Draft.read { inputs := inputs, phase := .inside } [.awaiting [] .output, .plain output] =
      .ok { inputs, phase := .after, output := some (some output) } := by
    rw [← show (if output = "--" then none else some output) = some output from if_neg hseparator]
    rfl
  rw [List.nil_append, hread]
  cases inputs with
  | nil => exact absurd rfl hne
  | cons first rest => rfl

/-- Whether two inputs do not do together what each of them does alone, although their packages have different
directories and nothing is done where the inputs themselves are. -/
def Disturb (f : Files) (a b output : String) : Prop :=
  ∃ p q first second both, schemasOf f a = .ok [p] ∧ schemasOf f b = .ok [q] ∧
    run [a, "-o", output] f = .ok first ∧ run [b, "-o", output] f = .ok second ∧
    run [a, b, "-o", output] f = .ok both ∧
    (∀ s s', schemaAt f none p = .ok s → schemaAt f none q = .ok s' →
      (directoryOf (plainOptions [a, b] output) s).location ≠ (directoryOf (plainOptions [a, b] output) s').location) ∧
    (∀ l ∈ [p.location, q.location], both.files.find? l = f.find? l) ∧
    ¬ (both.logged = first.logged ++ second.logged ∧ both.hasFailed = (first.hasFailed || second.hasFailed))

section

variable {f : Files} {a b output : String} {p q : Path}

/-- Inputs disturb each other if the second one is not worked on as if it were alone. -/
theorem disturb_of_turns {o : Options} (ho : o = plainOptions [a, b] output)
    (hplain : ∀ text ∈ [a, b], text.toList.head? ≠ some '-') (houtput : output.toList.head? ≠ some '-')
    (hp : schemasOf f a = .ok [p]) (hq : schemasOf f b = .ok [q])
    (hapart : ∀ s s', schemaAt f none p = .ok s → schemaAt f none q = .ok s' →
      (directoryOf o s).location ≠ (directoryOf o s').location)
    (hkept : ∀ l ∈ [p.location, q.location], (turn o (turn o f p).files q).files.find? l = f.find? l)
    (hdiffers : (turn o (turn o f p).files q).logged ≠ (turn o f q).logged ∨
      (turn o f p).hasFailed = false ∧ (turn o (turn o f p).files q).hasFailed ≠ (turn o f q).hasFailed) :
    Disturb f a b output := by
  subst ho
  have hrun {inputs : List String} {lists : List (List Path)} (hne : inputs ≠ []) (hinputs : inputs ⊆ [a, b])
      (hlists : inputs.mapM (schemasOf f) = .ok lists) :
      run (inputs ++ ["-o", output]) f = .ok (upTo (plainOptions [a, b] output) f lists.flatten) :=
    run_ok.mpr ⟨_, lists, options_of_inputs hne (fun text htext => hplain text (hinputs htext)) houtput, hlists, rfl⟩
  have hfirst : [a].mapM (schemasOf f) = .ok [[p]] := by
    rw [List.mapM_cons, hp]
    rfl
  have hsecond : [b].mapM (schemasOf f) = .ok [[q]] := by
    rw [List.mapM_cons, hq]
    rfl
  have hboth : [a, b].mapM (schemasOf f) = .ok [[p], [q]] := by
    rw [List.mapM_cons, hp, hsecond]
    rfl
  -- The run over both is the first turn, and the second one on the files that the first has left.
  refine ⟨p, q, _, _, _, hp, hq, hrun (by simp) (by simp) hfirst, hrun (by simp) (by simp) hsecond,
    hrun (by simp) (by simp) hboth, hapart, fun l hl => ?_, fun hsame => ?_⟩
  · rw [show [[p], [q]].flatten = [p, q] from rfl, upTo_pair, followedBy_files]
    exact hkept l hl
  · rw [show [[p], [q]].flatten = [p, q] from rfl, upTo_pair] at hsame
    obtain ⟨hlogged, hfailed⟩ := hsame
    obtain hlog | ⟨hfirst, hcode⟩ := hdiffers
    · exact hlog (List.append_cancel_left hlogged)
    · have hfailed : ((turn (plainOptions [a, b] output) f p).hasFailed ||
          (turn (plainOptions [a, b] output) (turn (plainOptions [a, b] output) f p).files q).hasFailed) =
            ((turn (plainOptions [a, b] output) f p).hasFailed ||
              (turn (plainOptions [a, b] output) f q).hasFailed) := hfailed
      rw [hfirst, Bool.false_or, Bool.false_or] at hfailed
      exact hcode hfailed

end

section

variable {f : Files} {a : String} {p : Path}

/-- After a turn that does not fail, a file stands where all modules of the package import from. -/
theorem support_written {o : Options} {p : Path} {s : Schema} (h : (turn o f p).hasFailed = false)
    (hs : schemaAt f o.package p = .ok s) :
    (turn o f p).files.locate (modulePath (directoryOf o s) supportModule) =
        .ok (place (directoryOf o s) supportModule) ∧
      (turn o f p).files.IsFile (place (directoryOf o s) supportModule) := by
  obtain ⟨s', pkg, hrenders, hholds⟩ := turn_renders h
  obtain rfl : s' = s := Except.ok.inj (hrenders.1.symm.trans hs)
  obtain ⟨ms, hms, -⟩ := Schema.generates_spec hrenders.2
  obtain ⟨source, hsource⟩ : ∃ source, pkg.sources.lookup supportModule = some source := by
    rw [Schema.lookup_sources_of_generates hrenders.2 hms, if_neg (by decide), if_pos rfl]
    cases (ms.map Package.Module.file).lookup supportModule <;> exact ⟨_, rfl⟩
  obtain ⟨text, -, hread⟩ := hholds supportModule source hsource
  obtain ⟨hlocate, hentry⟩ := Files.read_ok.mp hread
  exact ⟨hlocate, text, hentry⟩

/-- An input that is not found stands for itself. -/
theorem schemasOf_missing (h : f.locate p = .error .notFound) (ha : Path.ofText a = p) :
    schemasOf f a = .ok [p] := by
  rw [schemasOf, ha, h]
  dsimp only
  rw [Files.isDirectory_of_error h]
  rfl

/-- A path below the module that all others import from. -/
def belowSupport : Path :=
  (modulePath (sampleDirectory "desk") supportModule).child "x.yaml"

/-- An input below a module of the other package is not found at first, and stands below a file then. -/
theorem disturb_below (h : IsSampleFiles f) (hmissing : f.find? [Text.ofString "out"] = none) :
    Disturb f "a.json" "out/desk/_sbe.py/x.yaml" "out" := by
  let o := plainOptions ["a.json", "out/desk/_sbe.py/x.yaml"] "out"
  obtain ⟨s, pkg, hrenders, hdirectory, -, hok, hsample⟩ := sample_turn h .sides (o := o) rfl (.inl rfl)
  have hdirectory : directoryOf o s = sampleDirectory "desk" := hdirectory
  have hrefusal : belowSupport.refusal? = none := by decide
  -- At first the way ends where nothing is yet; behind the first turn it leads through a file.
  have hbefore : f.locate belowSupport = .error .notFound := by
    rw [Files.locate_of_passes [Text.ofString "out"] hrefusal rfl
      ⟨f.find?_base belowSupport, by decide, trivial⟩]
    rw [Files.follow, show belowSupport.base.through [Text.ofString "out"] = [Text.ofString "out"] by decide, hmissing]
  have hafter : (turn o f Sample.sides.path).files.locate belowSupport = .error .notDirectory := by
    obtain ⟨hlocate, text, hentry⟩ := support_written hok hrenders.1
    obtain ⟨-, hpasses, -⟩ := Files.locate_ok.mp hlocate
    rw [hdirectory] at hpasses hentry
    rw [Files.locate_of_passes _ hrefusal rfl hpasses, Files.follow,
      show belowSupport.base.through (modulePath (sampleDirectory "desk") supportModule).parts =
        place (sampleDirectory "desk") supportModule from rfl, hentry]
  have hfault : schemaAt f none belowSupport = .error (Refusal.notFound.fault belowSupport) := by
    rw [schemaAt, Files.read_of_error hbefore]
  have hfault' : schemaAt (turn o f Sample.sides.path).files none belowSupport =
      .error (Refusal.notDirectory.fault belowSupport) := by
    rw [schemaAt, Files.read_of_error hafter]
  refine disturb_of_turns (o := o) rfl (by decide) (by decide) (sample_paths .sides ⟨_, h.input _⟩)
    (schemasOf_missing hbefore (by decide)) (fun s s' _ hs' => ?apart) ?kept (.inl ?differs)
  case apart =>
    rw [hfault] at hs'
    cases hs'
  case kept =>
    rw [turn_of_error (o := o) hfault']
    refine List.forall_mem_cons.mpr ⟨?_, List.forall_mem_singleton.mpr ?_⟩
    · exact (hsample.input .sides).trans (h.input .sides).symm
    · have hlocation : belowSupport.location = ["out", "desk", "_sbe.py", "x.yaml"].map Text.ofString := by decide
      obtain hkept | ⟨hl, -⟩ | ⟨⟨entry, hl⟩, -⟩ :=
        sample_changes hrenders.1 (.inl rfl) hdirectory belowSupport.location
      · exact hkept
      · rw [hlocation] at hl
        simp at hl
      · rw [hlocation] at hl
        simp at hl
  case differs =>
    rw [turn_of_error (o := o) hfault', turn_of_error (o := o) hfault]
    dsimp only
    decide

/-- A name that is one byte too long. -/
def longName : Text :=
  List.replicate (Files.nameLimit + 1) (.char 'n')

/-- An output directory with a name that is too long. -/
def longOutput : String :=
  String.ofList ("out/".toList ++ List.replicate (Files.nameLimit + 1) 'n')

/-- A path below the directory `out`, by a name that is too long. -/
def longPath (rest : List Text) : Path where
  parts := Text.ofString "out" :: longName :: rest

theorem refusal?_longPath (x : Sample) :
    (longPath []).refusal? = none ∧ (longPath [Text.ofString x.package]).refusal? = none := by
  cases x <;> decide +kernel

theorem locate_longPath {rest : List Text} (hrefusal : (longPath rest).refusal? = none) :
    f.locate (longPath rest) = match f.find? [Text.ofString "out"] with
      | some .directory => .error .tooLong
      | some (.file _) => .error .notDirectory
      | none => .error .notFound := by
  have hshort : Files.IsShort (Text.ofString "out") := by decide
  have hlong : Files.nameLimit < longName.nameBytes.length := by decide +kernel
  have hlocation : (longPath rest).base.through [Text.ofString "out"] = [Text.ofString "out"] :=
    show Location.through [] [Text.ofString "out"] = _ by decide
  rw [Files.locate_of_passes [Text.ofString "out"] hrefusal rfl
    ⟨f.find?_base (longPath rest), hshort, trivial⟩, Files.follow, hlocation]
  cases f.find? [Text.ofString "out"] with
  | none => rfl
  | some entry =>
    cases entry with
    | directory => exact if_pos hlong
    | file text => rfl

/-- Where the directory `out` is there, the whole path is refused. -/
theorem ensureDirectories_longPath {rest : List Text} (hrefusal : (longPath rest).refusal? = none)
    (h : f.find? [Text.ofString "out"] = some .directory) :
    f.ensureDirectories (longPath rest) = (f, some (Refusal.tooLong.fault (longPath rest))) :=
  Files.ensureDirectories_of_error (by rw [locate_longPath hrefusal, h]) (by decide)

/-- Where the directory `out` is not there, it is made, and the path that ends with the name is refused. -/
theorem ensureDirectories_longPath_of_missing (x : Sample) (h : f.find? [Text.ofString "out"] = none) :
    f.ensureDirectories (longPath [Text.ofString x.package]) =
      (f.put [Text.ofString "out"] .directory, some (Refusal.tooLong.fault (longPath []))) := by
  obtain ⟨habove, hrefusal⟩ := refusal?_longPath x
  have hparts (rest : List Text) : (longPath rest).parts ≠ [] := List.cons_ne_nil _ _
  let out : Path := { parts := [Text.ofString "out"] }
  have hout : f.locate out = .ok [Text.ofString "out"] :=
    Files.locate_ok.mpr ⟨by decide, ⟨f.find?_base out, by decide, trivial⟩, by decide⟩
  have hmade : f.ensureDirectories out = (f.put [Text.ofString "out"] .directory, none) := by
    rw [Files.ensureDirectories_of_found (by simp [hout]), Files.ensureDirectory_of_located hout, h]
  have hthere : (f.put [Text.ofString "out"] .directory).find? [Text.ofString "out"] = some .directory := by
    rw [Files.find?_put (by simp [h]), if_pos rfl]
  have hlast := Files.ensureDirectory_of_error ((locate_longPath habove).trans (by rw [hthere]))
  rw [Files.ensureDirectories_of_missing (by rw [locate_longPath hrefusal, h]) (hparts _),
    show (longPath [Text.ofString x.package]).parent = longPath [] from rfl,
    Files.ensureDirectories_of_missing (by rw [locate_longPath habove, h]) (hparts _),
    show (longPath []).parent = out from rfl, hmade]
  dsimp only
  rw [hlast]

/-- Paths that are too long are logged alike only if they are written alike. -/
theorem errorLine_tooLong {name : Text} {p q : Path} :
    errorLine name (Refusal.tooLong.fault p) = errorLine name (Refusal.tooLong.fault q) ↔
      p.text.quotedChars = q.text.quotedChars := by
  obtain ⟨front, hreport⟩ : ∃ front : Text, ∀ p : Path, (Refusal.tooLong.fault p).shown.report =
      front ++ Text.ofString (String.ofList p.text.quotedChars) := ⟨_, fun _ => rfl⟩
  rw [errorLine, errorLine, List.append_right_inj, hreport, hreport, List.append_right_inj, Text.ofString_inj,
    String.ofList_inj]

/-- Where one name is too long, it depends on the other input which directory cannot be made. -/
theorem disturb_long (h : IsSampleFiles f) (hmissing : f.find? [Text.ofString "out"] = none) :
    Disturb f "a.json" "b.json" longOutput := by
  let o := plainOptions ["a.json", "b.json"] longOutput
  have hlist : longOutput.toList = "out/".toList ++ List.replicate (Files.nameLimit + 1) 'n' := String.toList_ofList
  have houtput : Path.ofText longOutput = longPath [] :=
    (congrArg (fun cs => Path.ofText (Text.ofChars cs)) hlist).trans (by decide +kernel)
  have hplain : longOutput.toList.head? ≠ some '-' := by
    rw [hlist]
    decide
  -- What an input does with files that hold the samples.
  have hdirectory {g : Files} (hg : IsSampleFiles g) (x : Sample) : ∃ s, schemaAt g none x.path = .ok s ∧
      directoryOf o s = longPath [Text.ofString x.package] := by
    obtain ⟨s, hs, hschema⟩ := sample_schema hg x (.inl rfl)
    refine ⟨s, hs, ?_⟩
    rw [directoryOf, show o.output = longOutput from rfl, houtput, (generates_of_isSchema hschema).1]
    cases x <;> rfl
  obtain ⟨s, hs, hd⟩ := hdirectory h .sides
  obtain ⟨s', hs', hd'⟩ := hdirectory h .ticks
  have hfirst := turn_of_refused (o := o) hs (hd ▸ ensureDirectories_longPath_of_missing .sides hmissing)
  have halone := turn_of_refused (o := o) hs' (hd' ▸ ensureDirectories_longPath_of_missing .ticks hmissing)
  have hput (l : Location) : (f.put [Text.ofString "out"] .directory).find? l =
      if l = [Text.ofString "out"] then some .directory else f.find? l :=
    Files.find?_put (by simp [hmissing])
  have hkept (x : Sample) : (f.put [Text.ofString "out"] .directory).find? [Text.ofString x.file] =
      f.find? [Text.ofString x.file] := by
    rw [hput]
    exact if_neg (by cases x <;> decide)
  have hread : schemaAt (f.put [Text.ofString "out"] .directory) none Sample.ticks.path = .ok s' := by
    rw [schemaAt_path .ticks none ((hkept .ticks).trans (h.input .ticks)), ← schemaAt_path .ticks none (h.input .ticks)]
    exact hs'
  have hsecond := turn_of_refused (o := o) hread (g := f.put [Text.ofString "out"] .directory) (by
    rw [hd']
    exact ensureDirectories_longPath (refusal?_longPath .ticks).2 ((hput _).trans (if_pos rfl)))
  refine disturb_of_turns (o := o) rfl (by decide) hplain (sample_paths .sides ⟨_, h.input _⟩)
    (sample_paths .ticks ⟨_, h.input _⟩) (fun t t' ht ht' => ?apart) ?kept (.inl ?differs)
  case apart =>
    obtain rfl := Except.ok.inj (hs.symm.trans ht)
    obtain rfl := Except.ok.inj (hs'.symm.trans ht')
    rw [hd, hd']
    decide +kernel
  case kept =>
    rw [hfirst, hsecond]
    exact List.forall_mem_cons.mpr ⟨hkept .sides, List.forall_mem_singleton.mpr (hkept .ticks)⟩
  case differs =>
    rw [hfirst, hsecond, halone]
    dsimp only
    rw [ne_eq, List.singleton_inj, errorLine_tooLong]
    decide +kernel

/-- The samples, the first of which has a package whose name begins with a slash. -/
def rootFiles : Files where
  entries := [([Text.ofString "a.json"], .file (String.ofList (enumerationText "/t" "side"))),
    ([Text.ofString "b.json"], .file (String.ofList Sample.ticks.text))]

/-- Files in which a package can be generated at the root of the file system. -/
structure IsRootFiles (f : Files) : Prop where
  sides : f.find? [Text.ofString "a.json"] = some (.file (String.ofList (enumerationText "/t" "side")))
  ticks : f.find? [Text.ofString "b.json"] = some (.file (String.ofList Sample.ticks.text))
  free : ∀ names ≠ [], f.find? (Location.slash :: names) = none

theorem isRootFiles_rootFiles : IsRootFiles rootFiles := by
  refine ⟨rfl, rfl, fun names hne => ?_⟩
  cases names with
  | nil => exact absurd rfl hne
  | cons name rest => rfl

/-- The directory at the root of the file system that the first package is written to. -/
def rootDirectory : Path where
  start := .root
  parts := [Text.ofString "t"]

/-- The directory of the second package, below a module of the first one. -/
def belowRoot : Path :=
  (modulePath rootDirectory supportModule).child "till"

theorem rootFiles_loads : ((documentOf ".json" (plainBreaks (enumerationText "/t" "side")) >>=
    Schema.ofDatum none).map (Sample.sides.isSchema "/t")).toOption = some true := by
  decide +kernel

/-- Whether the way to a directory is below the root of the file system. -/
def IsBelowRoot (d : Path) : Prop :=
  ∀ l ∈ d.way, l.head? = some Location.slash

instance (d : Path) : Decidable (IsBelowRoot d) :=
  inferInstanceAs (Decidable (∀ l ∈ d.way, l.head? = some Location.slash))

section

variable {o : Options} {s : Schema} {d : Path}

/-- A package below the root of the file system leaves all else as it is. -/
theorem kept_of_root {l : Location} (hs : schemaAt f o.package p = .ok s) (hroot : IsBelowRoot (directoryOf o s))
    (hl : l.head? ≠ some Location.slash) : (turn o f p).files.find? l = f.find? l := by
  obtain hkept | ⟨hmem, -⟩ | ⟨⟨⟨m, -, rfl⟩, -⟩, -⟩ := turn_changes hs l
  · exact hkept
  · exact absurd (hroot l hmem) hl
  · rw [place_eq, List.head?_append, hroot _ (directoryOf o s).location_mem_way] at hl
    exact absurd rfl hl

theorem IsRootFiles.not_isFile (h : IsRootFiles f) {l : Location} (hl : l.head? = some Location.slash) :
    ¬ f.IsFile l := by
  obtain ⟨names, rfl⟩ := List.head?_eq_some_iff.mp hl
  by_cases hnames : names = []
  · subst hnames
    exact Files.not_isFile_of_directory rfl
  · exact Files.not_isFile_of_none (h.free names hnames)

theorem IsRootFiles.place_free (h : IsRootFiles f) (hroot : IsBelowRoot d) (m : String) :
    f.find? (place d m) ≠ some .directory := by
  obtain ⟨names, hnames⟩ := List.head?_eq_some_iff.mp (hroot _ d.location_mem_way)
  rw [place_eq, hnames, List.cons_append, h.free _ (by simp)]
  simp

/-- A schema is generated without a fault where nothing is below the root of the file system. -/
theorem IsRootFiles.succeeds (h : IsRootFiles f) {x : Sample} {package : String}
    (hs : schemaAt f o.package p = .ok s) (hschema : x.isSchema package s = true) (hd : directoryOf o s = d)
    (hroot : IsBelowRoot d) (hrefusal : d.refusal? = none) (hshort : ∀ name ∈ d.parts, Files.IsShort name)
    (hnames : ∀ m ∈ supportModule :: x.exports.map Prod.fst ++ ["__init__"], (modulePath d m).refusal? = none ∧
      Files.IsShort (Text.ofString m ++ Text.ofString ".py") ∧ place d m ∉ d.way) :
    (turn o f p).hasFailed = false := by
  obtain ⟨-, ms, pkg, -, hpkg, -, hwritten, hplain⟩ := generates_of_isSchema hschema
  have hclear : f.Clear d.base d.parts := Files.clear_path.mpr ⟨hshort, fun l hl => h.not_isFile (hroot l hl)⟩
  refine turn_succeeds_of_names ⟨hs, hpkg⟩ hd hwritten hplain hrefusal hclear fun m hm => ?_
  obtain ⟨hpath, hname, hway⟩ := hnames m hm
  exact ⟨hpath, hname, h.place_free hroot m, hway⟩

end

/-- A package whose name begins with a slash can have a module where the output directory of another is to be. -/
theorem disturb_root (h : IsRootFiles f) : Disturb f "a.json" "b.json" "/t/_sbe.py" := by
  let o := plainOptions ["a.json", "b.json"] "/t/_sbe.py"
  obtain ⟨s, hs, hschema⟩ := exists_of_computed rootFiles_loads
  obtain ⟨s', hs', hschema'⟩ := exists_of_computed (sample_loads .ticks (.inl rfl))
  have hs : schemaAt f none Sample.sides.path = .ok s := (schemaAt_path .sides none h.sides).trans hs
  have hs' {g : Files} (hg : g.find? [Text.ofString "b.json"] = some (.file (String.ofList Sample.ticks.text))) :
      schemaAt g none Sample.ticks.path = .ok s' := (schemaAt_path .ticks none hg).trans hs'
  have hd : directoryOf o s = rootDirectory := by
    rw [directoryOf, (generates_of_isSchema hschema).1]
    decide
  have hd' : directoryOf o s' = belowRoot := by
    rw [directoryOf, (generates_of_isSchema hschema').1]
    decide
  have hroot : IsBelowRoot rootDirectory := by decide
  have hroot' : IsBelowRoot belowRoot := by decide
  have hkept (x : Sample) {g : Files} {p : Path} {t : Schema} (ht : schemaAt g none p = .ok t)
      (hroot : IsBelowRoot (directoryOf o t)) :
      (turn o g p).files.find? [Text.ofString x.file] = g.find? [Text.ofString x.file] :=
    kept_of_root ht hroot (by cases x <;> decide)
  -- Alone, each of them is generated.
  have hfirst : (turn o f Sample.sides.path).hasFailed = false :=
    h.succeeds hs hschema hd hroot (by decide) (by decide) (by decide)
  have halone : (turn o f Sample.ticks.path).hasFailed = false :=
    h.succeeds (hs' h.ticks) hschema' hd' hroot' (by decide) (by decide) (by decide)
  -- After the first one, a file stands where the directory of the second one is to be.
  have hmiddle := hkept .ticks hs (hd ▸ hroot)
  have hs'' := hs' (hmiddle.trans h.ticks)
  have hblocked : ¬ (turn o f Sample.sides.path).files.Clear belowRoot.base belowRoot.parts := fun hclear => by
    obtain ⟨-, hfile⟩ := support_written hfirst hs
    rw [hd] at hfile
    exact (Files.clear_path.mp hclear).2 _ (by decide) hfile
  have hsecond : (turn o (turn o f Sample.sides.path).files Sample.ticks.path).hasFailed = true := by
    obtain ⟨g, fault, hmake⟩ : ∃ g fault, (turn o f Sample.sides.path).files.ensureDirectories belowRoot =
      (g, fault) := ⟨_, _, rfl⟩
    have hmade := (turn o f Sample.sides.path).files.made_ensureDirectories (p := belowRoot) (by decide)
    rw [hmake] at hmade
    cases fault with
    | none => exact absurd (hmade.ended.mp rfl) hblocked
    | some fault => rw [turn_of_refused hs'' (hd' ▸ hmake)]
  refine disturb_of_turns (o := o) rfl (by decide) (by decide) (sample_paths .sides ⟨_, h.sides⟩)
    (sample_paths .ticks ⟨_, h.ticks⟩) (fun t t' ht ht' => ?apart) ?kept (.inr ⟨hfirst, ?differs⟩)
  case apart =>
    obtain rfl := Except.ok.inj (hs.symm.trans ht)
    obtain rfl := Except.ok.inj ((hs' h.ticks).symm.trans ht')
    rw [hd, hd']
    decide
  case kept =>
    have hlast (x : Sample) := hkept x hs'' (hd' ▸ hroot')
    exact List.forall_mem_cons.mpr ⟨(hlast .sides).trans (hkept .sides hs (hd ▸ hroot)),
      List.forall_mem_singleton.mpr ((hlast .ticks).trans hmiddle)⟩
  case differs =>
    rw [hsecond, halone]
    simp

end

/-- **Inputs can disturb each other** although their packages have different directories and nothing is done where
they are: a module can stand on the way to another input, or to the directory of another package, and with names
that are too long it depends on what is there which directory cannot be made. -/
theorem run_disturbs : Disturb sampleFiles "a.json" "out/desk/_sbe.py/x.yaml" "out" ∧
    Disturb rootFiles "a.json" "b.json" "/t/_sbe.py" ∧ Disturb sampleFiles "a.json" "b.json" longOutput :=
  ⟨disturb_below isSampleFiles_sampleFiles rfl, disturb_root isRootFiles_rootFiles,
    disturb_long isSampleFiles_sampleFiles rfl⟩

end CommandLine

end SimpleBinary
