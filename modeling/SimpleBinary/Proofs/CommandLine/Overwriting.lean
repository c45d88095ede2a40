import SimpleBinary.Proofs.CommandLine.Turns
import SimpleBinary.Proofs.Package.Siblings

/-!
Packages that are written over each other.

A run that ends well has written the package of each of its inputs. What is in the package of an input in the end
is what the last input with the same directory has written under each name: no input looks at what is there, and
each of them writes the module that stands for the package. So an input keeps what is generated for it if each
later input with the same directory has the same sources for its modules and exports what it exports (`run_keeps`);
with one directory for two inputs that are not made for it, the classes of the first are lost without a fault
(`run_loses`).
-/

set_option autoImplicit false

namespace SimpleBinary.CommandLine

open Package (Module)
open Report

/-- Whether an input holds a schema that is generated, with the files that are there when its turn comes. -/
def Renders (o : Options) (f : Files) (p : Path) (s : Schema) (pkg : Package) : Prop :=
  schemaAt f o.package p = .ok s ∧ s.Generates pkg

/-- Whether a package is generated into a directory by one of several inputs that come after others. -/
def Overwrites (o : Options) (f : Files) (before after : List Path) (d : Path) (pkg : Package) : Prop :=
  ∃ mid q rest s, after = mid ++ q :: rest ∧ Renders o (upTo o f (before ++ mid)).files q s pkg ∧
    (directoryOf o s).location = d.location

/-! ## Sources that can be encoded -/

theorem isPlain_append {a b : Text} : Text.isPlain (a ++ b) = true ↔ a.isPlain = true ∧ b.isPlain = true := by
  rw [Text.isPlain, List.all_append, Bool.and_eq_true]
  rfl

theorem isPlain_join {between : Text} {texts : List Text} (hbetween : between.isPlain = true)
    (h : ∀ t ∈ texts, t.isPlain = true) : (Text.join between texts).isPlain = true := by
  rw [Text.join]
  induction texts with
  | nil => rfl
  | cons first rest ih =>
    obtain ⟨hfirst, hrest⟩ := List.forall_mem_cons.mp h
    cases rest with
    | nil => rwa [List.intercalate_singleton]
    | cons next rest =>
      rw [List.intercalate_cons_cons, isPlain_append, isPlain_append]
      exact ⟨⟨hfirst, hbetween⟩, ih hrest⟩

theorem isPlain_ofString (s : String) : (Text.ofString s).isPlain = true :=
  Text.isPlain_ofChars _

/-- The source of a module can be encoded if the sentences about its classes can. -/
theorem isPlain_source {module : Module} (h : ∀ c ∈ module.classes, c.doc.isPlain = true) :
    module.source.isPlain = true := by
  have hclass (c : Code.ClassDef) (hc : c ∈ module.classes) : c.text.isPlain = true := by
    refine isPlain_join (isPlain_ofString _) (List.forall_mem_cons.mpr ⟨isPlain_ofString _,
      List.forall_mem_cons.mpr ⟨?_, List.forall_mem_map.mpr fun _ _ => isPlain_ofString _⟩⟩)
    rw [Code.ClassDef.docLine]
    simp only [isPlain_append, isPlain_ofString, h c hc, and_self]
  have hbody : (Code.classesText module.classes).isPlain = true :=
    isPlain_join (isPlain_ofString _) (List.forall_mem_map.mpr hclass)
  -- Line feeds at the end of a source are taken away, which leaves a part of it.
  have htrim {t : Text} (ht : t.isPlain = true) : (withoutLastBreaks t).isPlain = true := by
    rw [Text.isPlain, List.all_eq_true] at ht ⊢
    intro c hc
    rw [withoutLastBreaks, List.mem_reverse] at hc
    exact ht c (List.mem_reverse.mp ((List.dropWhile_suffix _).subset hc))
  -- In front of the classes stand the header and the imports, which are made of strings.
  rw [Package.Module.source, moduleSource]
  refine isPlain_append.mpr ⟨htrim (isPlain_join (isPlain_ofString _) fun t ht => ?_), isPlain_ofString _⟩
  rcases List.mem_append.mp ht with ht | ht
  · rcases List.mem_cons.mp ht with rfl | ht
    · exact isPlain_ofString _
    · split at ht
      · cases ht
      · rw [List.mem_singleton.mp ht]
        exact isPlain_append.mpr ⟨isPlain_ofString _, isPlain_ofString _⟩
  · rw [List.mem_singleton.mp ht]
    exact hbody

theorem generate_once (s : Schema) (pkg : Package) :
    Package.generate s 1 pkg = pkg.after (Generation.addSchema s) := by
  rw [Package.generate]
  split <;> rename_i h
  · rw [h]
    rfl
  · exact h.symm

section

variable {o : Options} {f : Files} {p : Path} {s : Schema} {pkg : Package}

/-- **A turn that can be seen to end well**: the directory of the package can be made, the sources can be encoded,
and the places of the modules are found and hold no directory. -/
theorem turn_succeeds (h : Renders o f p s pkg) (hrefusal : (directoryOf o s).refusal? = none)
    (hclear : f.Clear (directoryOf o s).base (directoryOf o s).parts)
    (hfiles : ∀ file ∈ pkg.written, file.2.isPlain = true ∧ (modulePath (directoryOf o s) file.1).refusal? = none ∧
      Files.IsShort (Text.ofString file.1 ++ Text.ofString ".py") ∧
      f.find? (place (directoryOf o s) file.1) ≠ some .directory ∧
      place (directoryOf o s) file.1 ∉ (directoryOf o s).way) :
    (turn o f p).hasFailed = false := by
  have hmade := f.made_ensureDirectories hrefusal
  obtain ⟨g, hdirectory⟩ : ∃ g, f.ensureDirectories (directoryOf o s) = (g, none) :=
    ⟨_, Prod.ext rfl (hmade.ended.mpr hclear)⟩
  rw [hdirectory] at hmade
  have hgenerated : Package.generate s 1 {} = (pkg, none) := by rw [generate_once, h.2]
  have hopen := Files.isOpen_ensureDirectories hdirectory
  obtain ⟨paths, hpaths⟩ := replay_succeeds o.isVerbose [] pkg.events (r := { files := g }) hopen
    fun file hfile => by
      obtain ⟨hplain, hpath, hshort, hnot, hway⟩ := hfiles file hfile
      refine ⟨hplain, hpath, hshort, ?_⟩
      rw [hmade.kept _ fun hopens => hway (Files.mem_way_of_opens hopens)]
      exact hnot
  rw [turn_of_made h.1 hdirectory, hgenerated]
  dsimp only
  unfold closing
  rw [hpaths, hgenerated]
  exact (replay_reports ..).2

/-- The same, by the names of the modules. -/
theorem turn_succeeds_of_names {d : Path} {names : List String} (h : Renders o f p s pkg)
    (hdirectory : directoryOf o s = d) (hwritten : pkg.written.map Prod.fst = names)
    (hplain : ∀ file ∈ pkg.written, file.2.isPlain = true) (hrefusal : d.refusal? = none)
    (hclear : f.Clear d.base d.parts)
    (hnames : ∀ m ∈ names, (modulePath d m).refusal? = none ∧
      Files.IsShort (Text.ofString m ++ Text.ofString ".py") ∧
      f.find? (place d m) ≠ some .directory ∧ place d m ∉ d.way) :
    (turn o f p).hasFailed = false := by
  subst hdirectory
  exact turn_succeeds h hrefusal hclear fun file hfile =>
    ⟨hplain file hfile, hnames _ (hwritten ▸ List.mem_map_of_mem hfile)⟩

end

/-! ## What later turns leave -/

section

variable {o : Options} {f : Files} {d p q : Path} {s : Schema} {pkg : Package} {m : String} {t : Text}

/-- **A turn that does not fail** has generated a package, and the modules of it are there. -/
theorem turn_renders (h : (turn o f p).hasFailed = false) : ∃ s pkg, Renders o f p s pkg ∧
    ∀ m source, pkg.sources.lookup m = some source →
      (turn o f p).files.Holds (modulePath (directoryOf o s) m) source := by
  cases hschema : schemaAt f o.package p with
  | error fault =>
    rw [turn_of_error hschema] at h
    cases h
  | ok s =>
    obtain ⟨g, fault, hdirectory⟩ : ∃ g fault, f.ensureDirectories (directoryOf o s) = (g, fault) := ⟨_, _, rfl⟩
    cases fault with
    | some fault =>
      rw [turn_of_refused hschema hdirectory] at h
      cases h
    | none =>
      -- The directory is there, so a turn that fails now fails in the generation or in writing.
      rw [turn_of_made hschema hdirectory] at h ⊢
      have hopen : g.IsOpen (directoryOf o s) := Files.isOpen_ensureDirectories hdirectory
      generalize hreplay : replay o.isVerbose (directoryOf o s) { files := g } []
        (Package.generate s 1 {}).1.events = result at h
      obtain ⟨r, ending⟩ := result
      dsimp only at h ⊢
      unfold closing at h
      split at h
      · cases h
      · rename_i written hending
        have hgenerates : s.Generates (Package.generate s 1 {}).1 := by
          rw [Schema.Generates, ← generate_once, ← hending]
        refine ⟨s, _, ⟨hschema, hgenerates⟩, fun m source hlookup => ?_⟩
        rw [closing_files]
        rw [Package.lookup_sources] at hlookup
        exact replay_holds hopen hreplay hlookup
      · cases h

theorem turn_directory {l : Location} (h : f.find? l = some .directory) :
    (turn o f p).files.find? l = some .directory := by
  cases hschema : schemaAt f o.package p with
  | error fault =>
    rw [turn_of_error hschema]
    exact h
  | ok s =>
    obtain hkept | ⟨-, hdirectory, -⟩ | ⟨-, hnot, -⟩ := turn_changes hschema l
    · exact hkept.trans h
    · exact hdirectory
    · exact absurd h hnot

/-- **What a later turn does to a module**: it stays as it is, or it is written anew by an input with the same
directory. -/
theorem turn_keeps (hheld : f.Holds (modulePath d m) t) (hok : (turn o f q).hasFailed = false) :
    (turn o f q).files.Holds (modulePath d m) t ∨ ∃ s pkg t', Renders o f q s pkg ∧
      (directoryOf o s).location = d.location ∧ pkg.sources.lookup m = some t' ∧
      (turn o f q).files.Holds (modulePath d m) t' := by
  obtain ⟨s, pkg, hrenders, hholds⟩ := turn_renders hok
  obtain ⟨text, -, hread⟩ := id hheld
  obtain ⟨hlocate, hentry⟩ := Files.read_ok.mp hread
  obtain hkept | ⟨-, -, hnot⟩ | ⟨⟨⟨m', hm', hplace⟩, -⟩, -, -⟩ := turn_changes hrenders.1 (place d m)
  · exact .inl (hheld.mono (fun _ => turn_directory) hkept)
  · exact absurd ⟨text, hentry⟩ hnot
  · obtain ⟨hlocation, rfl⟩ := place_inj.mp hplace
    have hpkg : (Package.generate s 1 {}).1 = pkg := by rw [generate_once, hrenders.2]
    rw [writtenModules, hpkg] at hm'
    obtain ⟨t', ht'⟩ : ∃ t', pkg.sources.lookup m = some t' := by
      rw [Package.lookup_sources]
      refine Option.ne_none_iff_exists'.mp fun hnone => ?_
      obtain ⟨file, hfile, rfl⟩ := List.mem_map.mp hm'
      exact absurd (List.lookup_eq_none_iff.mp hnone file (List.mem_reverse.mpr hfile)) (by simp)
    obtain ⟨text', htext', hread'⟩ := hholds m t' ht'
    have hentry' := (Files.read_ok.mp hread').2
    rw [show (modulePath (directoryOf o s) m).location = (modulePath d m).location from hplace.symm] at hentry'
    have hlocate' : (turn o f q).files.locate (modulePath d m) = .ok (place d m) :=
      Files.locate_mono (fun _ => turn_directory) hlocate
    exact .inr ⟨s, pkg, t', hrenders, hlocation.symm, ht', text', htext', Files.read_ok.mpr ⟨hlocate', hentry'⟩⟩

/-- The first turns of a run that does not fail do not fail. -/
theorem upTo_append (o : Options) (f : Files) (before after : List Path)
    (hok : (upTo o f (before ++ after)).hasFailed = false) : (upTo o f before).hasFailed = false := by
  induction after using List.reverseRecOn with
  | nil => rwa [List.append_nil] at hok
  | append_singleton rest p ih =>
    rw [← List.append_assoc, upTo_concat, followedBy, Bool.or_eq_false_iff] at hok
    exact ih hok.1

/-- Each turn of a run that does not fail does not fail. -/
theorem turn_of_upTo {before after : List Path} (hok : (upTo o f (before ++ p :: after)).hasFailed = false) :
    (turn o (upTo o f before).files p).hasFailed = false := by
  rw [List.append_cons] at hok
  have hfirst := upTo_append o f (before ++ [p]) after hok
  rw [upTo_concat, followedBy, Bool.or_eq_false_iff] at hfirst
  exact hfirst.2

/-- The files after a turn are those that the next one starts with. -/
theorem upTo_files (o : Options) (f : Files) (before : List Path) (p : Path) :
    (upTo o f (before ++ [p])).files = (turn o (upTo o f before).files p).files := by
  rw [upTo_concat, followedBy_files]

theorem Overwrites.append {before after more : List Path} (h : Overwrites o f before after d pkg) :
    Overwrites o f before (after ++ more) d pkg := by
  obtain ⟨mid, q, rest, s, rfl, hrenders, hlocation⟩ := h
  exact ⟨mid, q, rest ++ more, s, by simp, hrenders, hlocation⟩

/-- **What is true of a module stays true**, if it is true of all that is written over it. The induction is on the
inputs that come later. -/
theorem holds_upTo {P : Text → Prop} {before after : List Path}
    (hok : (upTo o f (before ++ after)).hasFailed = false)
    (hheld : ∃ t, P t ∧ (upTo o f before).files.Holds (modulePath d m) t)
    (hover : ∀ pkg, Overwrites o f before after d pkg → ∀ t, pkg.sources.lookup m = some t → P t) :
    ∃ t, P t ∧ (upTo o f (before ++ after)).files.Holds (modulePath d m) t := by
  induction after using List.reverseRecOn with
  | nil => rwa [List.append_nil]
  | append_singleton rest q ih =>
    rw [← List.append_assoc] at hok ⊢
    have hrest := upTo_append o f (before ++ rest) [q] hok
    have hturn : (turn o (upTo o f (before ++ rest)).files q).hasFailed = false := turn_of_upTo hok
    obtain ⟨t, ht, hholds⟩ := ih hrest fun pkg hpkg => hover pkg hpkg.append
    rw [upTo_files]
    obtain hstays | ⟨s, pkg, t', hrenders, hlocation, hlookup, hnew⟩ := turn_keeps hholds hturn
    · exact ⟨t, ht, hstays⟩
    · exact ⟨t', hover pkg ⟨rest, q, [], s, rfl, hrenders, hlocation⟩ t' hlookup, hnew⟩

/-- The module that stands for a package imports what is exported. -/
theorem lookup_init (h : s.Generates pkg) :
    pkg.sources.lookup "__init__" = some (Text.ofString (initSource s.toEdition pkg.exports)) := by
  obtain ⟨ms, hms, -⟩ := Schema.generates_spec h
  rw [Schema.lookup_sources_of_generates h hms, if_pos rfl]

/-- **Inputs of one run keep their packages**, as far as they are not written over. If a run ends well, each input
holds a schema that is generated when its turn comes. A module of it has its source in the end, if each package
that is generated into its directory later has the same source for the module or does not have it; and the module
that stands for the package imports all classes of the input, if each such package exports them. -/
theorem run_keeps {arguments : List String} {r : Report} (hrun : run arguments f = .ok r) (hcode : r.code = 0) :
    ∃ o lists, Options.ofArguments arguments = .ok o ∧ o.inputs.mapM (schemasOf f) = .ok lists ∧
      ∀ before p after, lists.flatten = before ++ p :: after →
        ∃ s pkg, Renders o (upTo o f before).files p s pkg ∧
          (∀ m source, pkg.sources.lookup m = some source →
            (∀ pkg', Overwrites o f (before ++ [p]) after (directoryOf o s) pkg' →
              ∀ source', pkg'.sources.lookup m = some source' → source' = source) →
            r.files.Holds (modulePath (directoryOf o s) m) source) ∧
          ((∀ pkg', Overwrites o f (before ++ [p]) after (directoryOf o s) pkg' → pkg.exports ⊆ pkg'.exports) →
            ∃ e exports, r.files.Holds (modulePath (directoryOf o s) "__init__") (initSource e exports : String) ∧
              pkg.exports ⊆ exports) := by
  obtain ⟨o, lists, ho, hlists, rfl⟩ := run_ok.mp hrun
  have hok : (upTo o f lists.flatten).hasFailed = false := by
    by_contra hfailed
    rw [code, if_pos (by simpa using hfailed)] at hcode
    cases hcode
  refine ⟨o, lists, ho, hlists, fun before p after hsplit => ?_⟩
  rw [hsplit] at hok
  obtain ⟨s, pkg, hrenders, hholds⟩ := turn_renders (turn_of_upTo hok)
  rw [← upTo_files] at hholds
  rw [List.append_cons before p after] at hsplit hok
  rw [hsplit]
  refine ⟨s, pkg, hrenders, fun m source hlookup hsame => ?_, fun hexports => ?_⟩
  · obtain ⟨t, rfl, ht⟩ := holds_upTo (P := (· = source)) hok ⟨source, rfl, hholds m source hlookup⟩ hsame
    exact ht
  · -- Each later package writes the module that stands for it anew, and exports at least as much.
    obtain ⟨t, ⟨e, exports, rfl, hsubset⟩, ht⟩ := holds_upTo
      (P := fun t => ∃ e exports, t = Text.ofString (initSource e exports) ∧ pkg.exports ⊆ exports) hok
      ⟨_, ⟨_, _, rfl, List.Subset.refl _⟩, hholds _ _ (lookup_init hrenders.2)⟩ fun pkg' hover t ht => by
        obtain ⟨_, _, _, s', _, hrenders', _⟩ := id hover
        rw [lookup_init hrenders'.2] at ht
        exact ⟨_, _, (Option.some.inj ht).symm, hexports pkg' hover⟩
    exact ⟨e, exports, ht, hsubset⟩

end

/-! ## A sample -/

/-- The parts of the text of a token in a document. -/
def tokenText (signal name attributes : String) : List String :=
  ["\x7b\"signal\": \"", signal, "\", \"name\": \"", name, "\"", attributes, "\x7d"]

/-- The parts of the text of a list in a document. -/
def listText (items : List (List String)) : List String :=
  ["["] ++ [", "].intercalate items ++ ["]"]

/-- A document that names its package, with a header and an enumeration of one value. -/
def enumerationText (package type : String) : List Char :=
  let member (name : String) := tokenText "ENCODING" name ", \"primitive_type\": \"uint16\", \"encoded_length\": 2"
  let header := [tokenText "BEGIN_COMPOSITE" "messageHeader" ", \"encoded_length\": 8"] ++
    Header.memberNames.map member ++ [tokenText "END_COMPOSITE" "messageHeader" ""]
  let enumeration := [
    tokenText "BEGIN_ENUM" type ", \"primitive_type\": \"uint8\", \"encoded_length\": 1",
    tokenText "VALID_VALUE" "first" ", \"const_value\": \"1\"",
    tokenText "END_ENUM" type ""]
  (["\x7b\"package\": \"", package, "\", \"header\": "] ++ listText header ++ [", \"types\": "] ++
    listText [listText enumeration] ++ ["\x7d"]).flatMap String.toList

/-- Two schemas, each with a package of its own and an enumeration. -/
inductive Sample
  | sides
  | ticks

namespace Sample

/-- The name of the file of a schema. -/
def file : Sample → String
  | sides => "a.json"
  | ticks => "b.json"

/-- The package of a schema. -/
def package : Sample → String
  | sides => "desk"
  | ticks => "till"

/-- The name of the enumeration of a schema. -/
def type : Sample → String
  | sides => "side"
  | ticks => "tick"

/-- The document of a schema. -/
def text (x : Sample) : List Char :=
  enumerationText x.package x.type

/-- The path of a schema. -/
def path (x : Sample) : Path :=
  ({} : Path).child x.file

/-- What is exported of a schema. -/
def exports (x : Sample) : List (String × List String) :=
  [("message_header", [headerType]), (x.type, [Identifier.typeName x.type])]

end Sample

/-- The files of both schemas. -/
def sampleFiles : Files where
  entries := [Sample.sides, Sample.ticks].map fun x => ([Text.ofString x.file], .file (String.ofList x.text))

/-- The options that generate both schemas into the directory `out`. -/
def sampleOptions (package : Option String) : Options where
  inputs := ["a.json", "b.json"]
  output := "out"
  package
  isVerbose := false

/-- Whether a schema is that of a sample, for a package. -/
def Sample.isSchema (x : Sample) (package : String) (s : Schema) : Bool :=
  s.packageName == Text.ofString package && s.toEdition.isWritable && (s.modules.map fun ms =>
    ms.map Module.entry == x.exports && ms.all fun m => m.classes.all fun c => c.doc.isPlain).toOption.getD false

theorem sample_loads (x : Sample) {package : Option String} (h : package = none ∨ package = some "desk") :
    ((documentOf ".json" (plainBreaks x.text) >>= Schema.ofDatum package).map
      (x.isSchema (package.getD x.package))).toOption = some true := by
  obtain rfl | rfl := h <;> cases x <;> decide +kernel

/-- Files in which a sample can be generated below the directory `out`. -/
structure IsSampleFiles (f : Files) : Prop where
  input : ∀ x : Sample, f.find? [Text.ofString x.file] = some (.file (String.ofList x.text))
  output : ¬ f.IsFile [Text.ofString "out"]
  below : ∀ name, ¬ f.IsFile [Text.ofString "out", name]
  place : ∀ name entry, f.find? [Text.ofString "out", name, entry] ≠ some .directory

theorem isSampleFiles_sampleFiles : IsSampleFiles sampleFiles := by
  refine ⟨fun x => ?_, Files.not_isFile_of_none rfl, fun name => Files.not_isFile_of_none rfl,
    fun name entry => ?_⟩
  · cases x <;> rfl
  · rw [show sampleFiles.find? [Text.ofString "out", name, entry] = none from rfl]
    simp

theorem sample_locate (f : Files) (x : Sample) : f.locate x.path = .ok [Text.ofString x.file] := by
  rw [show [Text.ofString x.file] = x.path.location by cases x <;> rfl]
  exact f.isOpen_workingDirectory.locate_entry (by cases x <;> decide) (by cases x <;> decide)

/-- A document in the file of a sample is read. -/
theorem schemaAt_path {f : Files} (x : Sample) {cs : List Char} (package : Option String)
    (hentry : f.find? [Text.ofString x.file] = some (.file (String.ofList cs))) :
    schemaAt f package x.path = documentOf ".json" (plainBreaks cs) >>= Schema.ofDatum package := by
  have hlocation : [Text.ofString x.file] = x.path.location := by cases x <;> rfl
  have hread : f.read x.path = .ok (String.ofList cs) :=
    Files.read_ok.mpr ⟨hlocation ▸ sample_locate f x, hlocation ▸ hentry⟩
  have hsuffix : suffixOf x.path = ".json" := by cases x <;> decide
  rw [schemaAt, hread]
  dsimp only
  rw [hsuffix, String.toList_ofList]

/-- A sample is read as the schema that it is. -/
theorem sample_schema {f : Files} (h : IsSampleFiles f) (x : Sample) {package : Option String}
    (hpackage : package = none ∨ package = some "desk") : ∃ s, schemaAt f package x.path = .ok s ∧
      x.isSchema (package.getD x.package) s = true := by
  obtain ⟨s, hs, hschema⟩ := exists_of_computed (sample_loads x hpackage)
  exact ⟨s, (schemaAt_path x package (h.input x)).trans hs, hschema⟩

/-- The directory of a package below the directory `out`. -/
def sampleDirectory (package : String) : Path where
  parts := [Text.ofString "out", Text.ofString package]

theorem sample_way {package : String} (h : package = "desk" ∨ package = "till") :
    (sampleDirectory package).way =
      [[], [Text.ofString "out"], [Text.ofString "out", Text.ofString package]] := by
  obtain rfl | rfl := h <;> decide

theorem sample_place {package : String} (h : package = "desk" ∨ package = "till") (m : String) :
    place (sampleDirectory package) m =
      [Text.ofString "out", Text.ofString package, Text.ofString m ++ Text.ofString ".py"] := by
  have hlocation : (sampleDirectory package).location = [Text.ofString "out", Text.ofString package] := by
    obtain rfl | rfl := h <;> decide
  rw [place_eq, hlocation]
  rfl

theorem generates_of_isSchema {x : Sample} {package : String} {s : Schema} (h : x.isSchema package s = true) :
    s.packageName = Text.ofString package ∧ ∃ ms pkg, s.modules = .ok ms ∧ s.Generates pkg ∧
      pkg.exports = x.exports ∧ pkg.written.map Prod.fst = supportModule :: x.exports.map Prod.fst ++ ["__init__"] ∧
      ∀ file ∈ pkg.written, file.2.isPlain = true := by
  rw [Sample.isSchema, Bool.and_eq_true, Bool.and_eq_true, beq_iff_eq] at h
  obtain ⟨⟨hpackage, hwritable⟩, hmodules⟩ := h
  cases hms : s.modules with
  | error fault =>
    rw [hms] at hmodules
    cases hmodules
  | ok ms =>
    rw [hms] at hmodules
    -- The entries of the modules are computed, and that their sentences are plain text.
    obtain ⟨hentries, hdocs⟩ := Bool.and_eq_true_iff.mp (show (_ && _) = true from hmodules)
    have hentries : ms.map Module.entry = x.exports := beq_iff_eq.mp hentries
    have hnodup : (ms.map Module.name).Nodup := by
      rw [← Package.map_fst_entry, hentries]
      cases x <;> decide
    obtain ⟨pkg, hpkg⟩ := s.exists_generates hms hnodup hwritable
    obtain ⟨-, hexports, hwritten⟩ := Schema.written_of_generates hpkg hms
    refine ⟨hpackage, ms, pkg, rfl, hpkg, hexports.trans hentries, ?_, ?_⟩
    · rw [(Schema.names_of_generates hpkg hms).2, ← Package.map_fst_entry, hentries]
    · intro file hfile
      rw [hwritten] at hfile
      rcases List.mem_append.mp hfile with hfile | hfile
      · rcases List.mem_cons.mp hfile with heq | hfile
        · exact (congrArg (fun file => file.2.isPlain) heq).trans (isPlain_ofString _)
        · obtain ⟨m, hm, rfl⟩ := List.mem_map.mp hfile
          refine isPlain_source fun c hc => ?_
          exact List.all_eq_true.mp (List.all_eq_true.mp hdocs m hm) c hc
      · rw [List.mem_singleton.mp hfile]
        exact isPlain_ofString _

section

variable {f : Files} {o : Options} {s : Schema} {pkg : Package} {package : String}

/-- A package below the directory `out` is written without a fault. -/
theorem sample_succeeds (h : IsSampleFiles f) (x : Sample) (hrenders : Renders o f x.path s pkg)
    (hknown : package = "desk" ∨ package = "till") (hdirectory : directoryOf o s = sampleDirectory package)
    (hwritten : pkg.written.map Prod.fst = supportModule :: x.exports.map Prod.fst ++ ["__init__"])
    (hplain : ∀ file ∈ pkg.written, file.2.isPlain = true) : (turn o f x.path).hasFailed = false := by
  have hpath : ∀ m ∈ supportModule :: x.exports.map Prod.fst ++ ["__init__"],
      (modulePath (sampleDirectory package) m).refusal? = none ∧
        Files.IsShort (Text.ofString m ++ Text.ofString ".py") := by
    obtain rfl | rfl := hknown <;> cases x <;> decide
  refine turn_succeeds_of_names hrenders hdirectory hwritten hplain ?_ ?_ fun m hm => ?_
  · obtain rfl | rfl := hknown <;> decide
  · obtain rfl | rfl := hknown
    · exact ⟨Files.not_isFile_of_directory rfl, by decide, h.output, by decide, h.below (Text.ofString "desk")⟩
    · exact ⟨Files.not_isFile_of_directory rfl, by decide, h.output, by decide, h.below (Text.ofString "till")⟩
  · obtain ⟨hrefusal, hshort⟩ := hpath m hm
    rw [sample_way hknown, sample_place hknown]
    exact ⟨hrefusal, hshort, h.place _ _, by simp⟩

/-- What a package below the directory `out` changes is the directories on the way to it, and entries of it. -/
theorem sample_changes {p : Path} (hs : schemaAt f o.package p = .ok s)
    (hknown : package = "desk" ∨ package = "till") (hdirectory : directoryOf o s = sampleDirectory package)
    (l : Location) : (turn o f p).files.find? l = f.find? l ∨
      l ∈ [[], [Text.ofString "out"], [Text.ofString "out", Text.ofString package]] ∧
        ¬ (turn o f p).files.IsFile l ∨
      (∃ entry, l = [Text.ofString "out", Text.ofString package, entry]) ∧
        (turn o f p).files.find? l ≠ some .directory := by
  obtain hkept | ⟨hl, hmade, -⟩ | ⟨⟨⟨m, -, rfl⟩, -⟩, -, hfile⟩ := turn_changes hs l
  · exact .inl hkept
  · rw [hdirectory, sample_way hknown] at hl
    exact .inr (.inl ⟨hl, Files.not_isFile_of_directory hmade⟩)
  · refine .inr (.inr ⟨⟨_, by rw [hdirectory, sample_place hknown]⟩, fun hmade => ?_⟩)
    exact Files.not_isFile_of_directory hmade hfile

/-- A package below the directory `out` leaves room for others. -/
theorem IsSampleFiles.turn (h : IsSampleFiles f) {p : Path} (hs : schemaAt f o.package p = .ok s)
    (hknown : package = "desk" ∨ package = "till") (hdirectory : directoryOf o s = sampleDirectory package) :
    IsSampleFiles (turn o f p).files := by
  have hchanges := sample_changes hs hknown hdirectory
  -- What changes are places of modules, and the directories that lead to them.
  refine ⟨fun x => ?_, ?_, fun name => ?_, fun name entry => ?_⟩
  · obtain hkept | ⟨hl, -⟩ | ⟨⟨entry, hl⟩, -⟩ := hchanges [Text.ofString x.file]
    · exact hkept.trans (h.input x)
    · cases x <;> simp [Text.ofString_inj, Sample.file] at hl
    · simp at hl
  · obtain hkept | ⟨-, hnot⟩ | ⟨⟨entry, hl⟩, -⟩ := hchanges [Text.ofString "out"]
    · rw [Files.IsFile, hkept]
      exact h.output
    · exact hnot
    · simp at hl
  · obtain hkept | ⟨-, hnot⟩ | ⟨⟨entry, hl⟩, -⟩ := hchanges [Text.ofString "out", name]
    · rw [Files.IsFile, hkept]
      exact h.below name
    · exact hnot
    · simp at hl
  · obtain hkept | ⟨hl, -⟩ | ⟨-, hnot⟩ := hchanges [Text.ofString "out", name, entry]
    · rw [hkept]
      exact h.place name entry
    · simp at hl
    · exact hnot

/-- **The turn of a sample** ends well, and the other one can be generated after it. -/
theorem sample_turn (h : IsSampleFiles f) (x : Sample) (ho : o.output = "out")
    (hpackage : o.package = none ∨ o.package = some "desk") : ∃ s pkg, Renders o f x.path s pkg ∧
      directoryOf o s = sampleDirectory (o.package.getD x.package) ∧ pkg.exports = x.exports ∧
      (Report.turn o f x.path).hasFailed = false ∧ IsSampleFiles (Report.turn o f x.path).files := by
  obtain ⟨s, hs, hschema⟩ := sample_schema h x hpackage
  obtain ⟨hname, ms, pkg, hms, hpkg, hexports, hwritten, hplain⟩ := generates_of_isSchema hschema
  have hknown : o.package.getD x.package = "desk" ∨ o.package.getD x.package = "till" := by
    obtain heq | heq := hpackage <;> rw [heq] <;> cases x <;> decide
  have hdirectory : directoryOf o s = sampleDirectory (o.package.getD x.package) := by
    rw [directoryOf, ho, hname]
    obtain heq | heq := hknown <;> rw [heq] <;> decide
  exact ⟨s, pkg, ⟨hs, hpkg⟩, hdirectory, hexports,
    sample_succeeds h x ⟨hs, hpkg⟩ hknown hdirectory hwritten hplain, h.turn hs hknown hdirectory⟩

/-- Where the package of a sample is. -/
theorem sample_directory (h : IsSampleFiles f) (x : Sample) (ho : o.output = "out")
    (hpackage : o.package = none ∨ o.package = some "desk") (hs : schemaAt f o.package x.path = .ok s) :
    directoryOf o s = sampleDirectory (o.package.getD x.package) := by
  obtain ⟨s', pkg, hrenders, hdirectory, -⟩ := sample_turn h x ho hpackage
  obtain rfl : s' = s := Except.ok.inj (hrenders.1.symm.trans hs)
  exact hdirectory

end

theorem sample_paths {f : Files} (x : Sample) (h : f.IsFile [Text.ofString x.file]) :
    schemasOf f x.file = .ok [x.path] := by
  have hpath : Path.ofText x.file = x.path := by cases x <;> decide
  have hlocate : f.locate x.path = .ok [Text.ofString x.file] := sample_locate f x
  have hfile : f.isDirectory x.path = false := by
    obtain ⟨text, htext⟩ := h
    rw [Files.isDirectory_of_located hlocate, htext]
    rfl
  rw [schemasOf, hpath, hlocate]
  dsimp only
  rw [hfile]
  rfl

/-- **A run over both samples** ends well, with one package or with two. -/
theorem sample_run {f : Files} (h : IsSampleFiles f) {arguments : List String} {package : Option String}
    (hpackage : package = none ∨ package = some "desk")
    (harguments : Options.ofArguments arguments = .ok (sampleOptions package)) :
    run arguments f =
        .ok (upTo (sampleOptions package) f [Sample.sides.path, Sample.ticks.path]) ∧
      (sampleOptions package).inputs.mapM (schemasOf f) =
        .ok [[Sample.sides.path], [Sample.ticks.path]] ∧
      (upTo (sampleOptions package) f [Sample.sides.path, Sample.ticks.path]).code = 0 := by
  obtain ⟨hlists, hrun⟩ := run_pair harguments rfl (sample_paths .sides ⟨_, h.input _⟩)
    (sample_paths .ticks ⟨_, h.input _⟩)
  obtain ⟨-, -, -, -, -, hfirst, hfiles⟩ := sample_turn h .sides (o := sampleOptions package) rfl hpackage
  obtain ⟨-, -, -, -, -, hsecond, -⟩ := sample_turn hfiles .ticks (o := sampleOptions package) rfl hpackage
  have hok : (upTo (sampleOptions package) f [Sample.sides.path, Sample.ticks.path]).hasFailed = false := by
    rw [upTo_pair]
    exact Bool.or_eq_false_iff.mpr ⟨hfirst, hsecond⟩
  refine ⟨hrun, hlists, ?_⟩
  rw [code, hok]
  rfl

/-- Whether all that is generated for a sample is in its package: each module has its source, and the module that
stands for the package imports all classes. -/
def Sample.IsKept (x : Sample) (f : Files) : Prop :=
  ∃ (s : Schema) (pkg : Package), directoryOf (sampleOptions none) s = sampleDirectory x.package ∧
    pkg.exports = x.exports ∧
    (∀ m source, pkg.sources.lookup m = some source → f.Holds (modulePath (sampleDirectory x.package) m) source) ∧
    ∃ e exports, f.Holds (modulePath (sampleDirectory x.package) "__init__") (initSource e exports : String) ∧
      pkg.exports ⊆ exports

/-- Both samples keep what is generated for them in packages of their own. -/
theorem sample_keeps : ∃ r, run ["a.json", "b.json", "-o", "out"] sampleFiles = .ok r ∧ r.code = 0 ∧
    ∀ x : Sample, x.IsKept r.files := by
  have harguments : Options.ofArguments ["a.json", "b.json", "-o", "out"] = .ok (sampleOptions none) := rfl
  have hsample := isSampleFiles_sampleFiles
  generalize sampleFiles = f at hsample
  obtain ⟨hrun, hlists, hcode⟩ := sample_run hsample (.inl rfl) harguments
  obtain ⟨o, lists, ho, hin, hall⟩ := run_keeps hrun hcode
  obtain rfl : o = sampleOptions none := Except.ok.inj (ho.symm.trans harguments)
  obtain rfl : lists = [[Sample.sides.path], [Sample.ticks.path]] := Except.ok.inj (hin.symm.trans hlists)
  -- What an input holds, and where its package is, is known from its turn alone.
  have hknown {f : Files} (hf : IsSampleFiles f) (x : Sample) {s : Schema} {pkg : Package}
      (h : Renders (sampleOptions none) f x.path s pkg) :
      directoryOf (sampleOptions none) s = sampleDirectory x.package ∧ pkg.exports = x.exports := by
    obtain ⟨s', pkg', hrenders, hdirectory, hexports, -⟩ :=
      sample_turn hf x (o := sampleOptions none) rfl (.inl rfl)
    obtain rfl : s' = s := Except.ok.inj (hrenders.1.symm.trans h.1)
    obtain rfl : pkg' = pkg := congrArg Prod.fst (hrenders.2.symm.trans h.2)
    exact ⟨hdirectory, hexports⟩
  have hfiles : IsSampleFiles (upTo (sampleOptions none) f [Sample.sides.path]).files := by
    obtain ⟨-, -, -, -, -, -, hfiles⟩ := sample_turn hsample .sides (o := sampleOptions none) rfl (.inl rfl)
    rwa [upTo_singleton]
  -- An input after which nothing is generated into its directory keeps all.
  have hkeeps (x : Sample) (before after : List Path)
      (hsplit : [Sample.sides.path, Sample.ticks.path] = before ++ x.path :: after)
      (hbefore : IsSampleFiles (upTo (sampleOptions none) f before).files)
      (hnone : ∀ pkg', ¬ Overwrites (sampleOptions none) f (before ++ [x.path]) after
        (sampleDirectory x.package) pkg') :
      x.IsKept (upTo (sampleOptions none) f [Sample.sides.path, Sample.ticks.path]).files := by
    obtain ⟨s, pkg, hrenders, hmodules, hinit⟩ := hall before x.path after hsplit
    obtain ⟨hdirectory, hexports⟩ := hknown hbefore x hrenders
    rw [hdirectory] at hmodules hinit
    exact ⟨s, pkg, hdirectory, hexports, fun m source hlookup =>
      hmodules m source hlookup fun pkg' h => absurd h (hnone pkg'), hinit fun pkg' h => absurd h (hnone pkg')⟩
  refine ⟨_, hrun, hcode, fun x => ?_⟩
  cases x with
  | sides =>
    refine hkeeps .sides [] [Sample.ticks.path] rfl hsample ?_
    rintro pkg' ⟨mid, q, rest, t, hsplit, ht, hlocation⟩
    obtain ⟨rfl, hq⟩ | ⟨-, hnil⟩ := List.append_eq_singleton_iff.mp hsplit.symm
    · obtain ⟨rfl, rfl⟩ := List.cons.inj hq
      rw [(hknown hfiles .ticks ht).1] at hlocation
      exact absurd hlocation (by decide)
    · cases hnil
  | ticks =>
    refine hkeeps .ticks [Sample.sides.path] [] rfl hfiles ?_
    rintro pkg' ⟨mid, q, rest, t, hsplit, -⟩
    simp at hsplit

/-- Import lines from modules whose names begin differently are different. -/
theorem head?_of_importLine {m m' : String} {names names' : List String} (hm : m ≠ "") (hm' : m' ≠ "")
    (h : importLine m names = importLine m' names') : m.toList.head? = m'.toList.head? := by
  have hhead {m : String} (hm : m ≠ "") (rest : List Char) : (m.toList ++ rest).head? = m.toList.head? := by
    cases hlist : m.toList with
    | nil => exact absurd (String.toList_eq_nil_iff.mp hlist) hm
    | cons c cs => rfl
  rw [importLine_eq, importLine_eq, String.append_right_inj] at h
  have hlist := congrArg (fun s : String => s.toList.head?) h
  simpa only [String.toList_append, List.append_assoc, hhead hm, hhead hm'] using hlist

/-- A line of the module that stands for the package which imports from a module names one that is exported. -/
theorem exported_of_importLine {e : Edition} {x : Sample} {m : String} {names : List String}
    (h : Text.ofString (importLine m names) ∈ (Text.ofString (initSource e x.exports)).lines) :
    ∃ m' ∈ supportModule :: x.exports.map Prod.fst, ∃ names', importLine m names = importLine m' names' := by
  have hlines : ∀ entry ∈ x.exports, IsLine entry.1 ∧ ∀ name ∈ entry.2, IsLine name := by cases x <;> decide
  obtain ⟨l, hl, rfl | ⟨entry, hentry, rfl⟩⟩ :=
    isExportLine_of_mem_lines hlines h (importsSibling_importLine m names)
  · exact ⟨supportModule, List.mem_cons_self .., exportedHelpers, Text.ofString_inj.mp hl⟩
  · exact ⟨entry.1, List.mem_cons_of_mem _ (List.mem_map_of_mem hentry), entry.2, Text.ofString_inj.mp hl⟩

/-- **A package that is written over.** Both samples are generated into one package, and the run ends well. But
the module that stands for the package does not import the class of the first one. -/
theorem run_loses : ∃ r s pkg text,
    run ["a.json", "b.json", "-o", "out", "--package", "desk"] sampleFiles = .ok r ∧ r.code = 0 ∧
      Renders (sampleOptions (some "desk")) sampleFiles Sample.sides.path s pkg ∧
      directoryOf (sampleOptions (some "desk")) s = sampleDirectory "desk" ∧ ("side", ["Side"]) ∈ pkg.exports ∧
      r.files.read (modulePath (sampleDirectory "desk") "__init__") = .ok text ∧
      ∀ names, Text.ofString (importLine "side" names) ∉ (Text.ofString text).lines := by
  have hsample := isSampleFiles_sampleFiles
  generalize sampleFiles = f at hsample
  obtain ⟨hrun, -, hcode⟩ := sample_run hsample (.inr rfl)
    (show Options.ofArguments ["a.json", "b.json", "-o", "out", "--package", "desk"] = _ from rfl)
  obtain ⟨s, pkg, hrenders, hdirectory, hexports, -, hfiles⟩ := sample_turn hsample .sides
    (o := sampleOptions (some "desk")) rfl (.inr rfl)
  obtain ⟨s', pkg', hrenders', hdirectory', hexports', hok, -⟩ := sample_turn hfiles .ticks
    (o := sampleOptions (some "desk")) rfl (.inr rfl)
  -- What is read in the end is what the last turn has left.
  obtain ⟨t, tpkg, ht, hholds⟩ := turn_renders hok
  obtain rfl : t = s' := Except.ok.inj (ht.1.symm.trans hrenders'.1)
  obtain rfl : tpkg = pkg' := congrArg Prod.fst (ht.2.symm.trans hrenders'.2)
  obtain ⟨text, htext, hread⟩ := hholds "__init__" _ (lookup_init ht.2)
  rw [hdirectory', Text.ofString_inj.mp htext, hexports'] at hread
  refine ⟨_, s, pkg, initSource t.toEdition Sample.ticks.exports, hrun, hcode, hrenders, hdirectory, ?_, ?_,
    fun names hline => ?_⟩
  · rw [hexports]
    decide
  · rw [upTo_pair, followedBy_files]
    exact hread
  · -- All modules that it imports from begin otherwise.
    obtain ⟨m, hm, names', heq⟩ := exported_of_importLine hline
    have hother : ∀ m ∈ supportModule :: Sample.ticks.exports.map Prod.fst,
      m ≠ "" ∧ "side".toList.head? ≠ m.toList.head? := by decide
    obtain ⟨hne, hhead⟩ := hother m hm
    exact hhead (head?_of_importLine (by decide) hne heq)

end SimpleBinary.CommandLine
