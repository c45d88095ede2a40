import SimpleBinary.CommandLine.Run
import SimpleBinary.Proofs.Files.Directories
import SimpleBinary.Proofs.Package.Modules

/-!
What one input does.

An input is worked on with the files that are there when its turn comes, and what has been reported before does
not matter (`Report.add_eq`). So a run is a row of turns, each of which starts with the files that the one before
has left (`Report.upTo`). A turn makes the package directory and writes the modules in it one after another. Two
turns of one input with different files are compared in `turn_agrees`, what a turn changes is said by `turn_changes`,
and what the files hold after all modules are written by `replay_holds`.
-/

set_option autoImplicit false

namespace SimpleBinary.CommandLine

/-- The directory of the package of a schema. -/
def directoryOf (o : Options) (s : Schema) : Path :=
  (Path.ofText o.output).join (Path.ofText s.packageName)

/-- The path of a module in the directory of a package. -/
def modulePath (directory : Path) (module : String) : Path :=
  directory.child (module ++ ".py")

/-- The location of a module in the directory of a package. -/
def place (directory : Path) (module : String) : Location :=
  (modulePath directory module).location

/-- The names of the modules that a schema writes, up to the first fault. -/
def writtenModules (s : Schema) : List String :=
  (Package.generate s 1 {}).1.written.map Prod.fst

/-- What a fault of an input is logged as. -/
def errorLine (name : Text) (fault : Fault) : Text :=
  "Error: " ++ name ++ ": " ++ fault.shown.report

namespace Report

/-- A report with what is reported after it. -/
def followedBy (r q : Report) : Report where
  files := q.files
  printed := r.printed ++ q.printed
  logged := r.logged ++ q.logged
  hasFailed := r.hasFailed || q.hasFailed

/-- What an input does with some files. -/
def turn (o : Options) (f : Files) (p : Path) : Report :=
  add o { files := f } p

/-- The report of a run after some of its inputs. -/
def upTo (o : Options) (f : Files) (paths : List Path) : Report :=
  paths.foldl (add o) { files := f }

end Report

open Report

section

variable {o : Options} {f g : Files} {d p : Path} {s : Schema} {r : Report} {m : String} {l : Location}

theorem place_eq (d : Path) (m : String) : place d m = d.location ++ [Text.ofString m ++ Text.ofString ".py"] := by
  have hplain : Text.isPlain (Text.ofString m ++ Text.ofString ".py") = true := by
    rw [Text.isPlain, List.all_append, Bool.and_eq_true]
    exact ⟨Text.isPlain_ofChars _, Text.isPlain_ofChars _⟩
  have hne : Text.ofString m ++ Text.ofString ".py" ≠ Location.twoPoints := by
    intro heq
    have hlength := congrArg List.length heq
    rw [List.length_append] at hlength
    exact absurd hlength (by simp [Location.twoPoints, Text.ofString, Text.ofChars])
  exact (Path.location_child ..).trans (Location.enter_of_plain hplain hne)

/-- Places are told apart by their directories and the names of the modules. -/
theorem place_inj {d' : Path} {m' : String} : place d m = place d' m' ↔ d.location = d'.location ∧ m = m' := by
  rw [place_eq, place_eq]
  constructor
  · intro h
    obtain ⟨hd, hm⟩ := List.append_inj' h rfl
    have hname := List.append_cancel_right (List.singleton_inj.mp hm)
    exact ⟨hd, Text.ofString_inj.mp hname⟩
  · rintro ⟨hd, rfl⟩
    rw [hd]

/-! ## A run as a row of turns -/

theorem followedBy_files (r q : Report) : (r.followedBy q).files = q.files :=
  rfl

theorem replay_wrote (verbose : Bool) (d : Path) (r : Report) (written : List Path) (m : String) (source : Text)
    (rest : List Event) : replay verbose d r written (.wrote m source :: rest) =
      match r.files.writeText (modulePath d m) source with
      | (files, none) => replay verbose d { r with files } (written ++ [modulePath d m]) rest
      | (files, some fault) => ({ r with files }, .error fault) := rfl

/-- What is not a module is logged only. -/
theorem replay_other {event : Event} (h : ∀ m source, event ≠ .wrote m source) (verbose : Bool) (d : Path)
    (r : Report) (written : List Path) (rest : List Event) : replay verbose d r written (event :: rest) =
      replay verbose d { r with logged := r.logged ++ (event.log verbose).map Text.ofString } written rest := by
  cases event with
  | wrote m source => exact absurd rfl (h m source)
  | warned w => rfl
  | placed type module => rfl
  | skipped type => rfl

theorem replay_followedBy (verbose : Bool) (d : Path) (r : Report) (written : List Path) (events : List Event) :
    replay verbose d r written events =
      (r.followedBy (replay verbose d { files := r.files } written events).1,
        (replay verbose d { files := r.files } written events).2) := by
  induction events generalizing r written with
  | nil => simp [replay, followedBy]
  | cons event rest ih =>
    by_cases hwrote : ∃ m source, event = .wrote m source
    · obtain ⟨m, source, rfl⟩ := hwrote
      rw [replay_wrote, replay_wrote]
      cases hwrite : r.files.writeText (modulePath d m) source with
      | mk files fault =>
        cases fault with
        | some fault => simp [followedBy]
        | none => exact ih { r with files } _
    · have hother : ∀ m source, event ≠ .wrote m source := fun m source heq => hwrote ⟨m, source, heq⟩
      rw [replay_other hother, replay_other hother, ih,
        ih { files := r.files, logged := [] ++ (event.log verbose).map Text.ofString }]
      simp [followedBy]

theorem generate_followedBy (verbose : Bool) (d : Path) (r : Report) (s : Schema) :
    r.generate verbose d s =
      (r.followedBy (generate verbose d { files := r.files } s).1, (generate verbose d { files := r.files } s).2) := by
  unfold generate
  dsimp only
  cases r.files.ensureDirectories d with
  | mk files fault =>
    cases fault with
    | some fault => simp [followedBy]
    | none =>
      dsimp only
      rw [replay_followedBy verbose d { r with files }]
      generalize replay verbose d { files } [] (Package.generate s 1 {}).1.events = result
      obtain ⟨q, ending⟩ := result
      cases ending with
      | error fault => rfl
      | ok written => cases (Package.generate s 1 {}).2 <;> rfl

/-- **What an input does depends on the files only**, and not on what has been reported before. -/
theorem add_eq (o : Options) (r : Report) (p : Path) : r.add o p = r.followedBy (turn o r.files p) := by
  unfold turn add
  dsimp only
  cases schemaAt r.files o.package p with
  | error fault => simp [fail, followedBy]
  | ok s =>
    dsimp only
    rw [generate_followedBy]
    generalize generate o.isVerbose _ { files := r.files } s = result
    obtain ⟨q, ending⟩ := result
    cases ending with
    | error fault => simp [fail, followedBy]
    | ok written => simp [succeed, followedBy]

theorem upTo_concat (o : Options) (f : Files) (before : List Path) (p : Path) :
    upTo o f (before ++ [p]) = (upTo o f before).followedBy (turn o (upTo o f before).files p) := by
  rw [upTo, List.foldl_concat]
  exact add_eq ..

/-- A run is the turns of its inputs, if its options are good and its inputs can be told. -/
theorem run_ok {arguments : List String} : run arguments f = .ok r ↔
    ∃ o lists, Options.ofArguments arguments = .ok o ∧ o.inputs.mapM (schemasOf f) = .ok lists ∧
      r = upTo o f lists.flatten := by
  unfold run
  cases Options.ofArguments arguments with
  | error stop =>
    show (Except.error stop : Except Stop Report) = _ ↔ _
    simp
  | ok o =>
    show (o.inputs.mapM (schemasOf f) >>= fun lists => .ok (upTo o f lists.flatten)) = _ ↔ _
    cases hlists : o.inputs.mapM (schemasOf f) with
    | error stop =>
      show (Except.error stop : Except Stop Report) = _ ↔ _
      simp [hlists]
    | ok lists =>
      show Except.ok (upTo o f lists.flatten) = _ ↔ _
      simp [hlists, eq_comm]

/-- A run over two inputs, neither of which is a directory. -/
theorem run_pair {arguments : List String} {a b : String} {q : Path} (ho : Options.ofArguments arguments = .ok o)
    (hinputs : o.inputs = [a, b]) (ha : schemasOf f a = .ok [p]) (hb : schemasOf f b = .ok [q]) :
    o.inputs.mapM (schemasOf f) = .ok [[p], [q]] ∧ run arguments f = .ok (upTo o f [p, q]) := by
  have hlists : o.inputs.mapM (schemasOf f) = .ok [[p], [q]] := by
    rw [hinputs]
    simp only [List.mapM_cons, List.mapM_nil, ha, hb]
    rfl
  exact ⟨hlists, run_ok.mpr ⟨o, _, ho, hlists, by simp⟩⟩

theorem upTo_singleton (o : Options) (f : Files) (p : Path) : upTo o f [p] = turn o f p :=
  rfl

theorem upTo_pair (o : Options) (f : Files) (p q : Path) :
    upTo o f [p, q] = (turn o f p).followedBy (turn o (turn o f p).files q) :=
  add_eq o (turn o f p) q

/-- What is written is not yet reported. -/
theorem replay_reports (verbose : Bool) (d : Path) (r : Report) (written : List Path) (events : List Event) :
    (replay verbose d r written events).1.printed = r.printed ∧
      (replay verbose d r written events).1.hasFailed = r.hasFailed := by
  induction events generalizing r written with
  | nil => exact ⟨rfl, rfl⟩
  | cons event rest ih =>
    by_cases hwrote : ∃ m source, event = .wrote m source
    · obtain ⟨m, source, rfl⟩ := hwrote
      rw [replay_wrote]
      split
      · exact ih ..
      · exact ⟨rfl, rfl⟩
    · rw [replay_other fun m source heq => hwrote ⟨m, source, heq⟩]
      exact ih ..

/-! ## The modules of one directory -/

theorem written_wrote (m : String) (source : Text) (rest : List Event) :
    ({ events := .wrote m source :: rest } : Package).written =
      (m, source) :: ({ events := rest } : Package).written := rfl

theorem written_other {event : Event} (h : ∀ m source, event ≠ .wrote m source) (rest : List Event) :
    ({ events := event :: rest } : Package).written = ({ events := rest } : Package).written := by
  cases event with
  | wrote m source => exact absurd rfl (h m source)
  | warned w => rfl
  | placed type module => rfl
  | skipped type => rfl

/-- Whether a location is the place of one of several modules. -/
def IsPlace (d : Path) (modules : List String) (l : Location) : Prop :=
  ∃ m ∈ modules, l = place d m

/-- Whether two changes of files come to the same: each location is left as it is by both, or has the same file
in the end, in the place of one of several modules. -/
def SameFiles (d : Path) (modules : List String) (f g f' g' : Files) : Prop :=
  ∀ l, (f'.find? l = f.find? l ∧ g'.find? l = g.find? l) ∨
    IsPlace d modules l ∧ f.find? l ≠ some .directory ∧ g.find? l ≠ some .directory ∧
      f'.find? l = g'.find? l ∧ g'.IsFile l

section

variable {modules more : List String} {f' g' f'' g'' : Files}

theorem SameFiles.refl (f g : Files) : SameFiles d modules f g f g :=
  fun _ => .inl ⟨rfl, rfl⟩

theorem SameFiles.mono (hmore : modules ⊆ more) (h : SameFiles d modules f g f' g') :
    SameFiles d more f g f' g' := fun l => by
  obtain hkept | ⟨⟨m, hm, hl⟩, hchanged⟩ := h l
  · exact .inl hkept
  · exact .inr ⟨⟨m, hmore hm, hl⟩, hchanged⟩

theorem SameFiles.trans (h : SameFiles d modules f g f' g') (h' : SameFiles d modules f' g' f'' g'') :
    SameFiles d modules f g f'' g'' := fun l => by
  obtain ⟨hf, hg⟩ | ⟨hplace, hf, hg, hsame, hfile⟩ := h l
  · rw [← hf, ← hg]
    exact h' l
  · obtain ⟨hf', hg'⟩ | ⟨-, -, -, hsame', hfile'⟩ := h' l
    · rw [Files.IsFile, ← hg'] at hfile
      exact .inr ⟨hplace, hf, hg, by rw [hf', hg', hsame], hfile⟩
    · exact .inr ⟨hplace, hf, hg, hsame', hfile'⟩

/-- A file that is put in a place where neither has a directory. -/
theorem sameFiles_put (text : String) (hf : f.find? (place d m) ≠ some .directory)
    (hsame : f.find? (place d m) = g.find? (place d m)) :
    SameFiles d [m] f g (f.put (place d m) (.file text)) (g.put (place d m) (.file text)) := fun l => by
  have hg : g.find? (place d m) ≠ some .directory := hsame ▸ hf
  rw [Files.IsFile, Files.find?_put hf, Files.find?_put hg]
  by_cases hl : l = place d m
  · subst hl
    exact .inr ⟨⟨m, List.mem_singleton_self m, rfl⟩, hf, hg, by simp, text, by simp⟩
  · exact .inl ⟨if_neg hl, if_neg hl⟩

theorem SameFiles.directory (h : SameFiles d modules f g f' g') (hl : f.find? l = some .directory) :
    f'.find? l = some .directory := by
  obtain ⟨hkept, -⟩ | ⟨-, hnot, -⟩ := h l
  · exact hkept.trans hl
  · exact absurd hl hnot

theorem SameFiles.symm (h : SameFiles d modules f g f' g') : SameFiles d modules g f g' f' := fun l => by
  obtain ⟨hf, hg⟩ | ⟨hplace, hf, hg, hsame, hfile⟩ := h l
  · exact .inl ⟨hg, hf⟩
  · rw [Files.IsFile, ← hsame] at hfile
    exact .inr ⟨hplace, hg, hf, hsame.symm, hfile⟩

/-- Where the same stands in a place before, the same stands there afterwards. -/
theorem SameFiles.entry (h : SameFiles d modules f g f' g') (hl : f.find? l = g.find? l) :
    f'.find? l = g'.find? l := by
  obtain ⟨hf, hg⟩ | ⟨-, -, -, hsame, -⟩ := h l
  · rw [hf, hg, hl]
  · exact hsame

end

/-- **Modules are written in the same way** wherever their directory is there and the same stands in their
places: the same is logged, the result is the same, and so is what they leave in their places. -/
theorem replay_agrees (verbose : Bool) (written : List Path) (events : List Event) (hr : r.files.IsOpen d)
    (hg : g.IsOpen d) (hplaces : ∀ m ∈ ({ events := events } : Package).written.map Prod.fst,
      r.files.find? (place d m) = g.find? (place d m)) :
    ∃ g', replay verbose d { r with files := g } written events =
        ({ (replay verbose d r written events).1 with files := g' }, (replay verbose d r written events).2) ∧
      SameFiles d (({ events := events } : Package).written.map Prod.fst) r.files g
        (replay verbose d r written events).1.files g' := by
  -- By the events: what one of them writes is there in both from then on.
  induction events generalizing r g written with
  | nil => exact ⟨g, rfl, SameFiles.refl r.files g⟩
  | cons event rest ih =>
    by_cases hwrote : ∃ m source, event = .wrote m source
    · obtain ⟨m, source, rfl⟩ := hwrote
      rw [written_wrote, List.map_cons, List.forall_mem_cons] at hplaces
      obtain ⟨hplace, hrest⟩ := hplaces
      rw [replay_wrote, replay_wrote, written_wrote, List.map_cons]
      obtain ⟨fault, hf, hgput⟩ | ⟨text, fault, hnot, hf, hgput⟩ := hr.writeText hg (m ++ ".py") source hplace
      · rw [show r.files.writeText (modulePath d m) source = _ from hf,
          show g.writeText (modulePath d m) source = _ from hgput]
        exact ⟨g, rfl, SameFiles.refl r.files g⟩
      · have hsame := sameFiles_put text hnot hplace
        rw [show r.files.writeText (modulePath d m) source = _ from hf,
          show g.writeText (modulePath d m) source = _ from hgput]
        have hput : SameFiles d (m :: ({ events := rest } : Package).written.map Prod.fst) r.files g
            (r.files.put (place d m) (.file text)) (g.put (place d m) (.file text)) :=
          hsame.mono (by simp)
        cases fault with
        | some fault => exact ⟨_, rfl, hput⟩
        | none =>
          obtain ⟨g', heq, hfiles⟩ := ih (written ++ [modulePath d m])
            (r := { r with files := r.files.put (place d m) (.file text) })
            (g := g.put (place d m) (.file text)) (hr.mono fun _ => hsame.directory)
            (hg.mono fun _ => hsame.symm.directory) (fun m' hm' => hsame.entry (hrest m' hm'))
          exact ⟨g', heq, hput.trans (hfiles.mono (List.subset_cons_self ..))⟩
    · have hother : ∀ m source, event ≠ .wrote m source := fun m source heq => hwrote ⟨m, source, heq⟩
      rw [written_other hother] at hplaces ⊢
      rw [replay_other hother, replay_other hother]
      exact ih written (r := { r with logged := r.logged ++ (event.log verbose).map Text.ofString }) hr hg hplaces

/-- What writing modules does to the files. -/
theorem replay_changes (verbose : Bool) (written : List Path) (events : List Event) (hr : r.files.IsOpen d)
    (l : Location) :
    (replay verbose d r written events).1.files.find? l = r.files.find? l ∨
      IsPlace d (({ events := events } : Package).written.map Prod.fst) l ∧ r.files.find? l ≠ some .directory ∧
        (replay verbose d r written events).1.files.IsFile l := by
  obtain ⟨g', heq, hfiles⟩ := replay_agrees verbose written events hr hr fun _ _ => rfl
  have hsame : (replay verbose d r written events).1.files = g' :=
    congrArg (fun result => result.1.files) heq
  obtain ⟨hkept, -⟩ | ⟨hplace, hnot, -, -, hfile⟩ := hfiles l
  · exact .inl hkept
  · exact .inr ⟨hplace, hnot, hsame ▸ hfile⟩

theorem replay_directory (verbose : Bool) (written : List Path) (events : List Event) (hr : r.files.IsOpen d)
    (h : r.files.find? l = some .directory) :
    (replay verbose d r written events).1.files.find? l = some .directory := by
  obtain hkept | ⟨-, hnot, -⟩ := replay_changes verbose written events hr l
  · exact hkept.trans h
  · exact absurd h hnot

/-- **What has been written is there**: once all modules are written, each has the source that was written last
under its name. -/
theorem replay_holds {verbose : Bool} {written paths : List Path} {events : List Event} {r' : Report}
    (hr : r.files.IsOpen d) (h : replay verbose d r written events = (r', .ok paths)) {source : Text}
    (hlookup : ({ events := events } : Package).written.reverse.lookup m = some source) :
    r'.files.Holds (modulePath d m) source := by
  induction events generalizing r written with
  | nil => cases hlookup
  | cons event rest ih =>
    by_cases hwrote : ∃ m source, event = .wrote m source
    · obtain ⟨m', source', rfl⟩ := hwrote
      rw [replay_wrote] at h
      cases hwrite : r.files.writeText (modulePath d m') source' with
      | mk files fault =>
        rw [hwrite] at h
        cases fault with
        | some fault => cases h
        | none =>
          obtain ⟨text, htext, hlocate, hnot, rfl⟩ := Files.writeText_ok hwrite
          have hput (l : Location) : (r.files.put (place d m') (.file text)).find? l =
            if l = place d m' then some (.file text) else r.files.find? l := Files.find?_put hnot
          have hopen : (r.files.put (place d m') (.file text)).IsOpen d := hr.put hnot
          rw [written_wrote, List.reverse_cons, List.lookup_append] at hlookup
          cases hrest : ({ events := rest } : Package).written.reverse.lookup m with
          | some found =>
            rw [hrest] at hlookup
            exact ih hopen h (hrest.trans hlookup)
          | none =>
            -- The module is not written again, so its file stays as it is.
            rw [hrest, Option.none_or, lookup_cons_ite] at hlookup
            obtain rfl : m = m' := by
              by_contra hne
              rw [if_neg hne] at hlookup
              cases hlookup
            rw [if_pos rfl] at hlookup
            obtain rfl := Option.some.inj hlookup
            have hr' : (replay verbose d { r with files := r.files.put (place d m) (.file text) }
                (written ++ [modulePath d m]) rest).1 = r' := congrArg Prod.fst h
            have hstays : r'.files.find? (place d m) = some (.file text) := by
              have hchanges := replay_changes verbose (written ++ [modulePath d m]) rest
                (r := { r with files := r.files.put (place d m) (.file text) }) hopen (place d m)
              rw [hr'] at hchanges
              obtain hkept | ⟨⟨m', hm', heq⟩, -⟩ := hchanges
              · exact hkept.trans ((hput _).trans (if_pos rfl))
              · obtain ⟨file, hfile, hname⟩ := List.mem_map.mp hm'
                have hnone := List.lookup_eq_none_iff.mp hrest file (List.mem_reverse.mpr hfile)
                exact absurd ((place_inj.mp heq).2.trans hname.symm) (by simpa using hnone)
            have hopen' : r'.files.IsOpen d := hr' ▸ hopen.mono fun l hl => replay_directory _ _ _ hopen hl
            have hlocate' : r'.files.locate (modulePath d m) = .ok (place d m) :=
              (hopen'.locate_child hr _).trans hlocate
            exact ⟨text, htext, Files.read_ok.mpr ⟨hlocate', hstays⟩⟩
    · have hother : ∀ m source, event ≠ .wrote m source := fun m source heq => hwrote ⟨m, source, heq⟩
      rw [written_other hother] at hlookup
      rw [replay_other hother] at h
      exact ih (r := { r with logged := r.logged ++ (event.log verbose).map Text.ofString }) hr h hlookup

/-- All modules are written if their directory is there, none of their places holds a directory, no path of them
is refused, and their sources can be encoded. -/
theorem replay_succeeds (verbose : Bool) (written : List Path) (events : List Event) (hr : r.files.IsOpen d)
    (h : ∀ file ∈ ({ events := events } : Package).written, file.2.isPlain = true ∧
      (modulePath d file.1).refusal? = none ∧ Files.IsShort (Text.ofString file.1 ++ Text.ofString ".py") ∧
      r.files.find? (place d file.1) ≠ some .directory) :
    ∃ paths, (replay verbose d r written events).2 = .ok paths := by
  induction events generalizing r written with
  | nil => exact ⟨written, rfl⟩
  | cons event rest ih =>
    by_cases hwrote : ∃ m source, event = .wrote m source
    · obtain ⟨m, source, rfl⟩ := hwrote
      rw [written_wrote, List.forall_mem_cons] at h
      obtain ⟨⟨hplain, hrefusal, hshort, hnot⟩, hrest⟩ := h
      -- A file is put in the place of the module alone, so no other place comes to hold a directory.
      have hput (l : Location) : (r.files.put (place d m) (.file source.plain)).find? l =
        if l = place d m then some (.file source.plain) else r.files.find? l := Files.find?_put hnot
      have hwrite : r.files.writeText (modulePath d m) source =
          (r.files.put (place d m) (.file source.plain), none) :=
        Files.writeText_of_plain (hr.locate_entry hrefusal hshort) hnot hplain
      rw [replay_wrote, hwrite]
      refine ih (written ++ [modulePath d m]) (r := { r with files := r.files.put (place d m) (.file source.plain) })
        (hr.put hnot) fun file hfile => ?_
      obtain ⟨hplain', hrefusal', hshort', hnot'⟩ := hrest file hfile
      refine ⟨hplain', hrefusal', hshort', ?_⟩
      show (r.files.put (place d m) (.file source.plain)).find? _ ≠ _
      rw [hput]
      split
      · simp
      · exact hnot'
    · have hother : ∀ m source, event ≠ .wrote m source := fun m source heq => hwrote ⟨m, source, heq⟩
      rw [written_other hother] at h
      rw [replay_other hother]
      exact ih written (r := { r with logged := r.logged ++ (event.log verbose).map Text.ofString }) hr h

/-! ## One turn -/

theorem turn_of_error {fault : Fault} (h : schemaAt f o.package p = .error fault) :
    turn o f p = { files := f, logged := [errorLine p.name fault], hasFailed := true } := by
  rw [turn, add, h]
  rfl

theorem turn_of_schema (h : schemaAt f o.package p = .ok s) :
    turn o f p = match generate o.isVerbose (directoryOf o s) { files := f } s with
      | (r, .error fault) => r.fail p.name fault
      | (r, .ok written) => r.succeed p.name s written := by
  rw [turn, add, h]
  rfl

/-- Where the directory of the package cannot be made, nothing is written. -/
theorem turn_of_refused {fault : Fault} (h : schemaAt f o.package p = .ok s)
    (hdirectory : f.ensureDirectories (directoryOf o s) = (g, some fault)) :
    turn o f p = { files := g, logged := [errorLine p.name fault], hasFailed := true } := by
  rw [turn_of_schema h, generate]
  dsimp only
  rw [hdirectory]
  rfl

/-- What a turn ends with, once its modules are written as far as this can be done. -/
def closing (p : Path) (s : Schema) (r : Report) (result : Except Fault (List Path)) : Report :=
  match result, (Package.generate s 1 {}).2 with
  | .ok _, some fault => r.fail p.name fault
  | .ok written, none => r.succeed p.name s written
  | .error fault, _ => r.fail p.name fault

theorem turn_of_made (h : schemaAt f o.package p = .ok s)
    (hdirectory : f.ensureDirectories (directoryOf o s) = (g, none)) :
    turn o f p =
      let result := replay o.isVerbose (directoryOf o s) { files := g } [] (Package.generate s 1 {}).1.events
      closing p s result.1 result.2 := by
  rw [turn_of_schema h, generate]
  dsimp only
  rw [hdirectory]
  dsimp only
  generalize replay o.isVerbose _ { files := g } [] (Package.generate s 1 {}).1.events = result
  obtain ⟨q, ending⟩ := result
  unfold closing
  cases ending with
  | error fault => rfl
  | ok written => cases (Package.generate s 1 {}).2 <;> rfl

theorem closing_files (p : Path) (s : Schema) (r : Report) (result : Except Fault (List Path)) :
    (closing p s r result).files = r.files := by
  unfold closing
  split <;> rfl

theorem closing_withFiles (p : Path) (s : Schema) (r : Report) (g : Files) (result : Except Fault (List Path)) :
    closing p s { r with files := g } result = { closing p s r result with files := g } := by
  unfold closing
  split <;> rfl

/-- Whether a module of a schema is written to a location, which can be no directory of the way to it. -/
def IsTarget (o : Options) (s : Schema) (l : Location) : Prop :=
  IsPlace (directoryOf o s) (writtenModules s) l ∧ l ∉ (directoryOf o s).way

/-- What an input can change at a location: a directory is made where no file is, on the way to the directory of
its package, or a module is written to where no directory is. -/
def Changes (o : Options) (s : Schema) (f f' : Files) (l : Location) : Prop :=
  l ∈ (directoryOf o s).way ∧ f'.find? l = some .directory ∧ ¬ f.IsFile l ∨
    IsTarget o s l ∧ f.find? l ≠ some .directory ∧ f'.IsFile l

/-- Whether two logs of an input are the same, or both hold one line only, since the directory of its package
cannot be made: there another directory of the way may be named. -/
def SameLog (o : Options) (f : Files) (p : Path) (log log' : List Text) : Prop :=
  log = log' ∨ ∃ s fault fault', schemaAt f o.package p = .ok s ∧
    (f.ensureDirectories (directoryOf o s)).2 = some fault' ∧
    Files.IsRefusal (directoryOf o s) fault ∧ Files.IsRefusal (directoryOf o s) fault' ∧
    log = [errorLine p.name fault] ∧ log' = [errorLine p.name fault']

/-- **Turns of one input with different files.** If the files on the way to the directory of its package are the
same, and the same stands where its modules are written to, then the input does the same with both. -/
theorem turn_agrees (hg : schemaAt g o.package p = .ok s) (hf : schemaAt f o.package p = .ok s)
    (hway : ∀ l ∈ (directoryOf o s).way, g.IsFile l ↔ f.IsFile l)
    (htargets : ∀ l, IsTarget o s l → g.find? l = f.find? l) :
    (turn o g p).printed = (turn o f p).printed ∧ (turn o g p).hasFailed = (turn o f p).hasFailed ∧
      SameLog o f p (turn o g p).logged (turn o f p).logged ∧
      ∀ l, ((turn o g p).files.find? l = g.find? l ∧ (turn o f p).files.find? l = f.find? l) ∨
        (turn o g p).files.find? l = (turn o f p).files.find? l ∧ Changes o s f (turn o f p).files l := by
  unfold IsTarget at htargets
  generalize hd : directoryOf o s = d at hway htargets
  cases hrefusal : d.refusal? with
  | some refusal =>
    rw [turn_of_refused hg (hd ▸ Files.ensureDirectories_of_refusal hrefusal),
      turn_of_refused hf (hd ▸ Files.ensureDirectories_of_refusal hrefusal)]
    exact ⟨rfl, rfl, .inl rfl, fun _ => .inl ⟨rfl, rfl⟩⟩
  | none =>
    obtain ⟨g', faultG, hensureG⟩ : ∃ g' fault, g.ensureDirectories d = (g', fault) := ⟨_, _, rfl⟩
    obtain ⟨f', faultF, hensureF⟩ : ∃ f' fault, f.ensureDirectories d = (f', fault) := ⟨_, _, rfl⟩
    have hmadeG : g.Made d (g', faultG) := hensureG ▸ g.made_ensureDirectories hrefusal
    have hmadeF : f.Made d (f', faultF) := hensureF ▸ f.made_ensureDirectories hrefusal
    obtain ⟨hended, hdirectories⟩ := hmadeG.agrees hmadeF hway
    cases faultF with
    | none =>
      obtain rfl : faultG = none := hended.mpr rfl
      have hopenG : g'.IsOpen d := hmadeG.isOpen rfl
      have hopenF : f'.IsOpen d := hmadeF.isOpen rfl
      have hplaces (m : String) (hm : m ∈ writtenModules s) : g'.find? (place d m) = f'.find? (place d m) := by
        by_cases hl : place d m ∈ d.way
        · exact (hopenG.directory _ hl).trans (hopenF.directory _ hl).symm
        · obtain ⟨hg', hf'⟩ | ⟨hsame, -⟩ := hdirectories (place d m)
          · exact hg'.trans ((htargets _ ⟨⟨m, hm, rfl⟩, hl⟩).trans hf'.symm)
          · exact hsame
      obtain ⟨f'', hreplay, hfiles⟩ := replay_agrees o.isVerbose [] (Package.generate s 1 {}).1.events
        (r := { files := g' }) hopenG hopenF hplaces
      rw [turn_of_made hg (hd ▸ hensureG), turn_of_made hf (hd ▸ hensureF), hd]
      dsimp only at hreplay ⊢
      rw [hreplay]
      generalize replay o.isVerbose d { files := g' } [] (Package.generate s 1 {}).1.events = result at hfiles
      dsimp only
      rw [closing_withFiles p s result.1 f'' result.2]
      refine ⟨rfl, rfl, .inl rfl, fun l => ?_⟩
      dsimp only
      rw [closing_files, Changes, IsTarget, hd]
      -- What is made is a directory and is not written to, so that at each location only one of the two happens.
      obtain ⟨hg'', hf''⟩ | ⟨hplace, -, hnot, hsame, hfile⟩ := hfiles l
      · obtain ⟨hg', hf'⟩ | ⟨hsame, hl, hdirectory, hnotFile⟩ := hdirectories l
        · exact .inl ⟨hg''.trans hg', hf''.trans hf'⟩
        · exact .inr ⟨hg''.trans (hsame.trans hf''.symm), .inl ⟨hl, hf''.trans hdirectory, hnotFile⟩⟩
      · obtain ⟨-, hf'⟩ | ⟨-, -, hdirectory, -⟩ := hdirectories l
        · have hl : l ∉ d.way := fun hl => hnot (hopenF.directory l hl)
          exact .inr ⟨hsame, .inr ⟨⟨hplace, hl⟩, hf' ▸ hnot, hfile⟩⟩
        · exact absurd hdirectory hnot
    | some faultF =>
      have hsome : faultG ≠ none := fun hnone => Option.some_ne_none _ (hended.mp hnone)
      obtain ⟨faultG, rfl⟩ := Option.ne_none_iff_exists'.mp hsome
      rw [turn_of_refused hg (hd ▸ hensureG), turn_of_refused hf (hd ▸ hensureF)]
      have hrefusalG := Files.isRefusal_ensureDirectories (congrArg Prod.snd hensureG)
      have hrefusalF := Files.isRefusal_ensureDirectories (congrArg Prod.snd hensureF)
      subst hd
      refine ⟨rfl, rfl, .inr ⟨s, _, _, hf, congrArg Prod.snd hensureF, hrefusalG, hrefusalF, rfl, rfl⟩, fun l => ?_⟩
      obtain hkept | ⟨hsame, hl, hdirectory, hnotFile⟩ := hdirectories l
      · exact .inl hkept
      · exact .inr ⟨hsame, .inl ⟨hl, hdirectory, hnotFile⟩⟩

/-- What an input does to the files. -/
theorem turn_changes (h : schemaAt f o.package p = .ok s) (l : Location) :
    (turn o f p).files.find? l = f.find? l ∨ Changes o s f (turn o f p).files l := by
  obtain ⟨-, -, -, hfiles⟩ := turn_agrees h h (fun _ _ => Iff.rfl) fun _ _ => rfl
  obtain ⟨hkept, -⟩ | ⟨-, hchanges⟩ := hfiles l
  · exact .inl hkept
  · exact .inr hchanges

end

end SimpleBinary.CommandLine
