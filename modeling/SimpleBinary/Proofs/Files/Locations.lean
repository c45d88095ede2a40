import Mathlib
import SimpleBinary.Files.Basic

/-!
Where paths lead.

A path names a location by its names alone (`Path.location`). Whether the path can be followed there depends on
the path itself, which may be refused whatever the files are (`Path.refusal?`), and on the files: every
location on the way must be a directory, and every name short (`Files.Passes`). So a path that leads somewhere
still leads there when there are more directories (`Files.locate_mono`). A name is shown by its bytes, which
brings no point into it (`Text.point_of_mem_asName`).
-/

set_option autoImplicit false

namespace SimpleBinary

namespace Location

/-- The location that several names lead to. -/
def through (here : Location) (names : List Text) : Location :=
  names.foldl enter here

@[simp] theorem through_nil (here : Location) : here.through [] = here := rfl

@[simp] theorem through_cons (here : Location) (name : Text) (rest : List Text) :
    here.through (name :: rest) = (here.enter name).through rest := rfl

@[simp] theorem through_concat (here : Location) (names : List Text) (name : Text) :
    here.through (names ++ [name]) = (here.through names).enter name :=
  List.foldl_concat ..

/-- What is not the directory above is entered by its name. -/
theorem enter_of_plain {here : Location} {name : Text} (hplain : name.isPlain = true)
    (hne : name ≠ twoPoints) : here.enter name = here ++ [name] := by
  rw [enter, if_neg hne, Text.asName, if_pos hplain]

end Location

namespace Path

/-- The location that a path begins at. -/
def base (p : Path) : Location :=
  if p.isAbsolute then [Location.slash] else []

/-- The location that a path names. -/
def location (p : Path) : Location :=
  p.base.through p.parts

/-- The locations on the way of a path, the first and the last with them. -/
def way (p : Path) : List Location :=
  p.parts.inits.map p.base.through

/-- Why a path is refused, whatever files there are. -/
def refusal? (p : Path) : Option Refusal :=
  match p.text.unencodableName? with
  | some problem => some (.unencodable problem)
  | none =>
    if p.parts.any (·.contains (.char '\x00')) then some .holdsNul
    else if Files.pathLimit < p.text.nameBytes.length then some .tooLong
    else none

theorem isOutside_base (p : Path) : p.base.isOutside = true := by
  unfold base
  split <;> rfl

theorem mem_way {p : Path} {l : Location} :
    l ∈ p.way ↔ ∃ front, front <+: p.parts ∧ l = p.base.through front := by
  simp only [way, List.mem_map, List.mem_inits, eq_comm]

theorem location_mem_way (p : Path) : p.location ∈ p.way :=
  mem_way.mpr ⟨p.parts, List.prefix_rfl, rfl⟩

theorem location_child (p : Path) (name : Text) : (p.child name).location = p.location.enter name :=
  Location.through_concat ..

end Path

namespace Files

/-- Whether a name is not too long. -/
def IsShort (name : Text) : Prop :=
  name.nameBytes.length ≤ nameLimit

instance (name : Text) : Decidable (IsShort name) :=
  inferInstanceAs (Decidable (_ ≤ _))

/-- Whether names can be followed from a location: each is short, and stands in a directory. -/
def Passes (f : Files) : Location → List Text → Prop
  | _, [] => True
  | here, name :: rest =>
    f.find? here = some .directory ∧ IsShort name ∧ f.Passes (here.enter name) rest

section

variable {f g : Files} {here : Location} {names : List Text} {p : Path} {l : Location}

theorem find?_of_isOutside (h : here.isOutside = true) : f.find? here = some .directory := by
  rw [find?, if_pos h]

theorem find?_base (f : Files) (p : Path) : f.find? p.base = some .directory :=
  find?_of_isOutside p.isOutside_base

theorem follow_ok : f.follow here names = .ok l ↔ f.Passes here names ∧ l = here.through names := by
  induction names generalizing here with
  | nil => simp [follow, Passes, eq_comm]
  | cons name rest ih =>
    rw [follow, Passes, Location.through_cons]
    cases hentry : f.find? here with
    | none => simp
    | some entry =>
      cases entry with
      | file text => simp
      | directory =>
        by_cases hlong : nameLimit < name.nameBytes.length
        · simp [hlong, IsShort]
        · simp [hlong, IsShort, ih, Nat.le_of_not_lt hlong]

/-- Where names can be followed, those behind them are followed from where they lead. -/
theorem Passes.follow_append (h : f.Passes here names) (more : List Text) :
    f.follow here (names ++ more) = f.follow (here.through names) more := by
  induction names generalizing here with
  | nil => rfl
  | cons name rest ih =>
    obtain ⟨hhere, hshort, hrest⟩ := h
    rw [List.cons_append, follow, hhere]
    exact (if_neg (Nat.not_lt_of_le hshort)).trans (ih hrest)

theorem passes_concat {name : Text} : f.Passes here (names ++ [name]) ↔
    f.Passes here names ∧ f.find? (here.through names) = some .directory ∧ IsShort name := by
  induction names generalizing here with
  | nil => simp [Passes]
  | cons first rest ih => simp only [List.cons_append, Passes, ih, Location.through_cons, and_assoc]

/-- Where names can be followed, all locations before the last one are directories. -/
theorem Passes.directory (h : f.Passes here names) {front : List Text} (hfront : front <+: names)
    (hne : front ≠ names) : f.find? (here.through front) = some .directory := by
  induction names generalizing here front with
  | nil => exact absurd (List.prefix_nil.mp hfront) hne
  | cons name rest ih =>
    obtain ⟨hentry, -, hrest⟩ := h
    cases front with
    | nil => exact hentry
    | cons first front =>
      obtain ⟨hfirst, hrests⟩ := List.cons_prefix_cons.mp hfront
      subst hfirst
      exact ih hrest hrests fun heq => hne (heq ▸ rfl)

/-- Names can be followed if they are short and all locations before the last one are directories. -/
theorem passes_of_directories (hshort : ∀ name ∈ names, IsShort name)
    (h : ∀ front, front <+: names → front ≠ names → f.find? (here.through front) = some .directory) :
    f.Passes here names := by
  induction names generalizing here with
  | nil => trivial
  | cons name rest ih =>
    obtain ⟨hname, hrest⟩ := List.forall_mem_cons.mp hshort
    refine ⟨h [] List.nil_prefix (by simp), hname, ih hrest fun front hfront hne => ?_⟩
    exact h (name :: front) (List.cons_prefix_cons.mpr ⟨rfl, hfront⟩) (by simpa using hne)

theorem Passes.mono (hmore : ∀ l, f.find? l = some .directory → g.find? l = some .directory)
    (h : f.Passes here names) : g.Passes here names := by
  induction names generalizing here with
  | nil => trivial
  | cons name rest ih => exact ⟨hmore _ h.1, h.2.1, ih h.2.2⟩

theorem locate_eq (f : Files) (p : Path) : f.locate p =
    match p.refusal? with
    | some refusal => .error refusal
    | none => f.follow p.base p.parts := by
  unfold locate Path.refusal? Path.base
  cases p.text.unencodableName? with
  | some problem => rfl
  | none =>
    dsimp only
    split
    · rfl
    · split <;> rfl

/-- **A path leads to its location** if it is not refused, and can be followed there. -/
theorem locate_ok : f.locate p = .ok l ↔
    p.refusal? = none ∧ f.Passes p.base p.parts ∧ l = p.location := by
  rw [locate_eq]
  cases p.refusal? with
  | some refusal => simp
  | none =>
    rw [Path.location]
    simpa using follow_ok

theorem locate_of_refusal {r : Refusal} (h : p.refusal? = some r) : f.locate p = .error r := by
  rw [locate_eq, h]

/-- Where the first names of a path can be followed, it is followed from where they lead. -/
theorem locate_of_passes (front : List Text) {rest : List Text} (hrefusal : p.refusal? = none)
    (hparts : p.parts = front ++ rest) (h : f.Passes p.base front) : f.locate p = f.follow (p.base.through front) rest := by
  rw [locate_eq, hrefusal, hparts]
  exact h.follow_append rest

/-- A path that leads somewhere still leads there when there are more directories. -/
theorem locate_mono (hmore : ∀ l, f.find? l = some .directory → g.find? l = some .directory)
    (h : f.locate p = .ok l) : g.locate p = .ok l := by
  obtain ⟨hrefusal, hpasses, hl⟩ := locate_ok.mp h
  exact locate_ok.mpr ⟨hrefusal, hpasses.mono hmore, hl⟩

/-! ## Operations, once it is known where their path leads -/

theorem isDirectory_of_error {r : Refusal} (h : f.locate p = .error r) : f.isDirectory p = false := by
  rw [isDirectory, h]

theorem isDirectory_of_located (h : f.locate p = .ok l) : f.isDirectory p = (f.find? l == some .directory) := by
  rw [isDirectory, h]

theorem read_of_error {r : Refusal} (h : f.locate p = .error r) : f.read p = .error r := by
  rw [read, h]
  rfl

theorem read_of_located (h : f.locate p = .ok l) : f.read p =
    match f.find? l with
    | some (.file text) => .ok text
    | some .directory => .error .isDirectory
    | none => .error .notFound := by
  rw [read, h]
  rfl

theorem write_of_error {r : Refusal} (text : String) (h : f.locate p = .error r) : f.write p text = .error r := by
  rw [write, h]
  rfl

theorem write_of_located (text : String) (h : f.locate p = .ok l) : f.write p text =
    if f.find? l = some .directory then .error .isDirectory else .ok (f.put l (.file text)) := by
  rw [write, h]
  dsimp only [bind, Except.bind]
  cases f.find? l with
  | none => rfl
  | some entry => cases entry <;> rfl

theorem writeText_of_error {r : Refusal} (t : Text) (h : f.locate p = .error r) :
    f.writeText p t = (f, some (r.fault p)) := by
  rw [writeText, write_of_error _ h]

theorem writeText_of_located (t : Text) (h : f.locate p = .ok l) : f.writeText p t =
    if f.find? l = some .directory then (f, some (Refusal.isDirectory.fault p))
    else (f.put l (.file (t.toString?.getD "")), t.unencodable?.map .notEncodable) := by
  rw [writeText, write_of_located _ h]
  by_cases hdirectory : f.find? l = some .directory
  · rw [if_pos hdirectory, if_pos hdirectory]
  · rw [if_neg hdirectory, if_neg hdirectory]

theorem makeDirectory_of_error {r : Refusal} (h : f.locate p = .error r) : f.makeDirectory p = .error r := by
  rw [makeDirectory, h]
  rfl

theorem makeDirectory_of_located (h : f.locate p = .ok l) : f.makeDirectory p =
    match f.find? l with
    | some _ => .error .exists
    | none => .ok (f.put l .directory) := by
  rw [makeDirectory, h]
  rfl

theorem ensureDirectory_of_error {r : Refusal} (h : f.locate p = .error r) :
    f.ensureDirectory p = (f, some (r.fault p)) := by
  rw [ensureDirectory, makeDirectory_of_error h, isDirectory_of_error h]
  simp

theorem ensureDirectory_of_located (h : f.locate p = .ok l) : f.ensureDirectory p =
    match f.find? l with
    | some .directory => (f, none)
    | some (.file _) => (f, some (Refusal.exists.fault p))
    | none => (f.put l .directory, none) := by
  rw [ensureDirectory, makeDirectory_of_located h, isDirectory_of_located h]
  cases f.find? l with
  | none => rfl
  | some entry => cases entry <;> rfl

/-! ## Entries that are put -/

theorem lookup_set (here : Location) (e : FileEntry) (entries : List (Location × FileEntry)) :
    (put.set here e entries).lookup l = if l = here then some e else entries.lookup l := by
  have hlookup (first : Location × FileEntry) (rest : List (Location × FileEntry)) :
      (first :: rest).lookup l = if l = first.1 then some first.2 else rest.lookup l := by
    rw [List.lookup_cons]
    by_cases h : l = first.1
    · simp [h]
    · simp [h, beq_eq_false_iff_ne.mpr h]
  induction entries with
  | nil => exact hlookup ..
  | cons first rest ih =>
    rw [put.set]
    by_cases hfirst : first.1 = here
    · rw [if_pos hfirst, hlookup, hlookup, hfirst]
      split <;> rfl
    · rw [if_neg hfirst, hlookup, hlookup, ih]
      by_cases hl : l = here
      · subst hl
        simp [Ne.symm hfirst]
      · simp [hl]

/-- What stands somewhere once an entry is put where no directory is. -/
theorem find?_put {e : FileEntry} (h : f.find? here ≠ some .directory) :
    (f.put here e).find? l = if l = here then some e else f.find? l := by
  have hinside : here.isOutside = false :=
    Bool.eq_false_iff.mpr fun houtside => h (find?_of_isOutside houtside)
  unfold find?
  by_cases hl : l = here
  · subst hl
    simp [hinside, put, lookup_set]
  · simp [put, lookup_set, hl]

end

end Files

/-! ## Names with points -/

namespace Text

/-- The byte of a point. -/
def pointByte : UInt8 := 0x2e

theorem eq_point_of_mem_utf8 {c : Char} (h : pointByte ∈ String.utf8EncodeChar c) : c = '.' := by
  have hbyte {n : Nat} (heq : pointByte = UInt8.ofNat n) : n % 256 = 0x2e := by
    have hnat := congrArg UInt8.toNat heq
    rw [UInt8.toNat_ofNat'] at hnat
    exact hnat.symm
  have hc : c.val.toNat = 0x2e := by
    unfold String.utf8EncodeChar at h
    simp only at h
    split at h
    · have := hbyte (List.mem_singleton.mp h)
      omega
    · split at h
      · simp only [List.mem_cons, List.not_mem_nil, or_false] at h
        rcases h with h | h <;> have := hbyte h <;> omega
      · split at h
        · simp only [List.mem_cons, List.not_mem_nil, or_false] at h
          rcases h with h | h | h <;> have := hbyte h <;> omega
        · simp only [List.mem_cons, List.not_mem_nil, or_false] at h
          rcases h with h | h | h | h <;> have := hbyte h <;> omega
  exact Char.ext (UInt32.toNat_inj.mp hc)

theorem eq_point_of_mem_nameBytes {p : CodePoint} (h : pointByte ∈ p.nameBytes) : p = .char '.' := by
  cases p with
  | char c => rw [eq_point_of_mem_utf8 h]
  | half offset =>
    rw [CodePoint.nameBytes, CodePoint.loneByte?, Option.mem_toList] at h
    split at h
    · rename_i hrange
      rw [Bool.and_eq_true, decide_eq_true_iff, decide_eq_true_iff] at hrange
      have hnat := congrArg UInt8.toNat (Option.some.inj h)
      rw [Nat.toUInt8_eq, UInt8.toNat_ofNat'] at hnat
      have hpoint : pointByte.toNat = 0x2e := rfl
      omega
    · cases h

theorem point_mem_of_mem_nameBytes {t : Text} (h : pointByte ∈ t.nameBytes) : .char '.' ∈ t := by
  obtain ⟨p, hp, hbyte⟩ := List.mem_flatMap.mp h
  rwa [← eq_point_of_mem_nameBytes hbyte]

/-- A character is read where its bytes are. -/
theorem charAt?_eq_some {bytes : List UInt8} {c : Char} {n : Nat} (h : charAt? bytes = some (c, n)) :
    bytes.take n = String.utf8EncodeChar c := by
  obtain ⟨m, -, hm⟩ := List.exists_of_findSome?_eq_some h
  cases hs : String.fromUTF8? ⟨(bytes.take m).toArray⟩ with
  | none =>
    rw [hs] at hm
    cases hm
  | some s =>
    rw [hs] at hm
    cases hlist : s.toList with
    | nil => simp [hlist] at hm
    | cons c' rest =>
      cases rest with
      | cons _ _ => simp [hlist] at hm
      | nil =>
        -- The bytes that have been tried are those of a text of one character.
        obtain ⟨rfl, rfl⟩ : c' = c ∧ m = n := by simpa [hlist] using hm
        unfold String.fromUTF8? at hs
        split at hs
        · obtain rfl := Option.some.inj hs
          have hbytes : (String.ofList [c']).toByteArray = ⟨(bytes.take m).toArray⟩ := by
            rw [← hlist, String.ofList_toList]
            rfl
          rw [String.toByteArray_ofList, List.utf8Encode_singleton] at hbytes
          have hdata := congrArg (fun bytes : ByteArray => bytes.data.toList) hbytes
          rw [List.toList_data_toByteArray] at hdata
          exact hdata.symm
        · cases hs

theorem point_of_mem_ofNameBytes {fuel bytes : List UInt8} (h : .char '.' ∈ ofNameBytes fuel bytes) :
    pointByte ∈ bytes := by
  induction fuel generalizing bytes with
  | nil => cases h
  | cons _ fuel ih =>
    cases bytes with
    | nil => cases h
    | cons b rest =>
      rw [ofNameBytes] at h
      split at h
      · rename_i c n hc
        rcases List.mem_cons.mp h with heq | h
        · have hbyte := charAt?_eq_some hc
          rw [← CodePoint.char.inj heq] at hbyte
          refine List.mem_of_mem_take (i := n) ?_
          rw [hbyte]
          decide
        · exact List.mem_of_mem_drop (ih h)
      · rcases List.mem_cons.mp h with heq | h
        · cases heq
        · exact List.mem_cons_of_mem _ (ih h)

/-- A name is shown with a point only if it has one. -/
theorem point_of_mem_asName {t : Text} (h : .char '.' ∈ t.asName) : .char '.' ∈ t := by
  rw [asName] at h
  split at h
  · exact h
  · exact point_mem_of_mem_nameBytes (point_of_mem_ofNameBytes h)


/-- What stands between marks stands in the text. -/
theorem mem_of_mem_split {α : Type} [DecidableEq α] {mark x : α} {cs part : List α} (hpart : part ∈ split mark cs)
    (hx : x ∈ part) : x ∈ cs := by
  induction cs generalizing part with
  | nil =>
    rw [List.mem_singleton.mp hpart] at hx
    exact hx
  | cons c rest ih =>
    rw [split] at hpart
    -- A first part is begun by the mark, or the character belongs to the one that is there.
    cases hrest : split mark rest with
    | nil =>
      rw [hrest, List.mem_singleton] at hpart
      rw [hpart] at hx
      exact List.mem_cons.mpr (.inl (List.mem_singleton.mp hx))
    | cons first more =>
      rw [hrest] at hpart ih
      dsimp only at hpart
      split at hpart
      · rcases List.mem_cons.mp hpart with rfl | hpart
        · cases hx
        · exact List.mem_cons_of_mem _ (ih hpart hx)
      · rcases List.mem_cons.mp hpart with rfl | hpart
        · rcases List.mem_cons.mp hx with rfl | hx
          · exact List.mem_cons_self
          · exact List.mem_cons_of_mem _ (ih (List.mem_cons_self ..) hx)
        · exact List.mem_cons_of_mem _ (ih (List.mem_cons_of_mem _ hpart) hx)

end Text

/-! ## The directory above -/

namespace Text

theorem unencodableFrom_append {isByte : CodePoint → Bool} {start : Nat} {a b : Text}
    (h : unencodableFrom isByte start (a ++ b) = none) : unencodableFrom isByte start a = none := by
  induction a generalizing start with
  | nil => rfl
  | cons p rest ih =>
    rw [List.cons_append, unencodableFrom] at h
    rw [unencodableFrom]
    split at h
    · cases h
    · rename_i hgood
      rw [if_neg hgood]
      exact ih h

/-- A text can be encoded if all its code points are characters. -/
theorem unencodable?_eq_none {t : Text} : t.unencodable? = none ↔ t.isPlain = true := by
  have hfrom (start : Nat) : unencodableFrom (fun _ => false) start t = none ↔ t.isPlain = true := by
    induction t generalizing start with
    | nil => simp [unencodableFrom, isPlain]
    | cons p rest ih => cases p <;> simp_all [unencodableFrom, isPlain, CodePoint.isHalf]
  exact hfrom 0

/-- A text whose code points are all characters is the text of a string. -/
theorem ofString_plain {t : Text} (h : t.isPlain = true) : ofString t.plain = t := by
  rw [ofString, plain, String.toList_ofList]
  induction t with
  | nil => rfl
  | cons p rest ih =>
    cases p with
    | char c => exact congrArg _ (ih h)
    | half offset => cases h

theorem join_prefix (between : Text) (texts more : List Text) :
    join between texts <+: join between (texts ++ more) := by
  induction texts with
  | nil => exact List.nil_prefix
  | cons first rest ih =>
    cases rest with
    | nil =>
      cases more with
      | nil => exact List.prefix_rfl
      | cons next more =>
        rw [join, join, List.intercalate_singleton, List.singleton_append, List.intercalate_cons_cons,
          List.append_assoc]
        exact List.prefix_append ..
    | cons next rest =>
      show List.intercalate between (first :: next :: rest) <+:
        List.intercalate between (first :: next :: (rest ++ more))
      rw [List.intercalate_cons_cons, List.intercalate_cons_cons]
      exact (List.prefix_append_right_inj _).mpr ih

end Text

namespace Path

/-- The text of a path begins with that of the directory above, unless this is the working directory. -/
theorem text_parent (p : Path) : p.parent.text <+: p.text ∨ p.parent.text = Text.ofString "." := by
  by_cases hhere : p.start = .workingDirectory ∧ p.parts.dropLast.isEmpty
  · exact .inr (if_pos hhere)
  · have hnot : ¬ (p.start = .workingDirectory ∧ p.parts.isEmpty) := by
      rintro ⟨hstart, hempty⟩
      exact hhere ⟨hstart, by rw [List.isEmpty_iff.mp hempty]; rfl⟩
    left
    rw [text, text, if_neg hnot, parent, if_neg hhere, List.prefix_append_right_inj]
    obtain ⟨last, hlast⟩ := List.dropLast_prefix p.parts
    conv => rhs; rw [← hlast]
    exact Text.join_prefix ..

/-- Above a path that is not refused there is none that is. -/
theorem refusal?_parent {p : Path} (h : p.refusal? = none) : p.parent.refusal? = none := by
  unfold refusal? at h ⊢
  split at h
  · cases h
  · rename_i hname
    have hnul : ¬ p.parts.any (·.contains (.char '\x00')) = true := by
      intro hnul
      rw [if_pos hnul] at h
      cases h
    rw [if_neg hnul] at h
    have hshort : ¬ Files.pathLimit < p.text.nameBytes.length := by
      intro hlong
      rw [if_pos hlong] at h
      cases h
    have hnulParent : ¬ p.parent.parts.any (·.contains (.char '\x00')) = true := by
      intro hany
      obtain ⟨name, hname, hnulName⟩ := List.any_eq_true.mp hany
      exact hnul (List.any_eq_true.mpr ⟨name, List.mem_of_mem_dropLast hname, hnulName⟩)
    -- The path above is written as the beginning of this one, or by a point alone.
    obtain ⟨rest, hrest⟩ | hpoint := p.text_parent
    · have hnameParent : p.parent.text.unencodableName? = none := by
        rw [← hrest] at hname
        exact Text.unencodableFrom_append hname
      have hshortParent : ¬ Files.pathLimit < p.parent.text.nameBytes.length := by
        rw [← hrest, Text.nameBytes, List.flatMap_append, List.length_append] at hshort
        exact fun hlong => hshort (Nat.lt_add_right _ hlong)
      rw [hnameParent]
      exact (if_neg hnulParent).trans (if_neg hshortParent)
    · rw [hpoint]
      exact (if_neg hnulParent).trans (if_neg (by decide))

end Path

end SimpleBinary
