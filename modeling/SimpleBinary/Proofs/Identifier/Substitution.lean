import SimpleBinary.Proofs.Class.Identifiers

/-!
Words as two substitutions.

An identifier is split into its words in one pass, which looks at three characters at a time (`splitWords`).
The same can be said by two substitutions, one after the other: first an underscore goes before the last
capital of a run of several where a small letter follows, and then one goes between a small letter or a digit
and a capital behind it. A substitution looks for its pattern from the left to the right, takes as many
characters as it can for a part that may be repeated, and goes on behind what it has found.

Each substitution on its own is a pass that looks at two or three characters (`replaces_lastCapital_iff`,
`replaces_hump_iff`), and the two passes make up the one (`exists_replaces_iff`).
-/

set_option autoImplicit false

namespace SimpleBinary.Identifier

/-! ## Substitutions -/

/-- What a pattern finds at the front of a text: what replaces the characters that it takes, and the characters
behind them. -/
abbrev Finder :=
  List Char → Option (List Char × List Char)

namespace Finder

/-- The end of a pattern. -/
def done : Finder :=
  fun cs => some ([], cs)

/-- A place at which an underscore is put, and the pattern goes on. -/
def mark (next : Finder) : Finder :=
  fun cs => (next cs).map fun found => ('_' :: found.1, found.2)

/-- A character that passes a test, and the pattern goes on. -/
def one (test : Char → Bool) (next : Finder) : Finder
  | [] => none
  | c :: rest => if test c then (next rest).map fun found => (c :: found.1, found.2) else none

/-- One or more characters that pass a test, as many as there can be where the pattern still goes on. -/
def many (test : Char → Bool) (next : Finder) : Finder
  | [] => none
  | c :: rest =>
    if test c then (many test next rest <|> next rest).map fun found => (c :: found.1, found.2) else none

/-- The last capital of several, where a small letter follows: the underscore is put before it. -/
def lastCapital : Finder :=
  many Char.isUpper (mark (one Char.isUpper (one Char.isLower done)))

/-- A capital behind a small letter or a digit: the underscore is put between the two. -/
def hump : Finder :=
  one (fun c => c.isLower || c.isDigit) (mark (one Char.isUpper done))

/-- Whether a text is another one with all that a pattern finds replaced, from the left to the right. -/
inductive Replaces (find : Finder) : List Char → List Char → Prop
  | nil : find [] = none → Replaces find [] []
  | found {cs out rest ds : List Char} : find cs = some (out, rest) → Replaces find rest ds →
      Replaces find cs (out ++ ds)
  | kept {c : Char} {cs ds : List Char} : find (c :: cs) = none → Replaces find cs ds →
      Replaces find (c :: cs) (c :: ds)

section

variable {find : Finder} {pass : List Char → List Char} {cs ds : List Char}

/-- A pass over a text replaces what a pattern finds, and nothing else does, if it does so at the front. -/
theorem replaces_iff (hnone : find [] = none) (hnil : pass [] = [])
    (hfound : ∀ cs out rest, find cs = some (out, rest) → rest.length < cs.length ∧ pass cs = out ++ pass rest)
    (hkept : ∀ c cs, find (c :: cs) = none → pass (c :: cs) = c :: pass cs) :
    find.Replaces cs ds ↔ ds = pass cs := by
  constructor
  · intro h
    induction h with
    | nil => exact hnil.symm
    | found hfind _ ih => rw [(hfound _ _ _ hfind).2, ih]
    | kept hfind _ ih => rw [hkept _ _ hfind, ih]
  · rintro rfl
    -- What is found may be several characters, so the induction is on the length of the text.
    induction hn : cs.length using Nat.strongRecOn generalizing cs with
    | ind n ih =>
      cases hfind : find cs with
      | some found =>
        obtain ⟨hshort, hpass⟩ := hfound cs found.1 found.2 hfind
        rw [hpass]
        exact .found hfind (ih _ (hn ▸ hshort) rfl)
      | none =>
        cases cs with
        | nil =>
          rw [hnil]
          exact .nil hnone
        | cons c cs =>
          rw [hkept c cs hfind]
          exact .kept hfind (ih _ (hn ▸ Nat.lt_succ_self _) rfl)

end

end Finder

/-! ## Passes -/

/-- Characters behind another one, with an underscore before each of them at which there is a break. -/
def splitBehind (breaks : Char → Char → List Char → Bool) (before : Char) : List Char → List Char
  | [] => []
  | c :: after =>
    if breaks before c after then '_' :: c :: splitBehind breaks c after else c :: splitBehind breaks c after

/-- One pass over an identifier, which puts underscores at the breaks inside it. -/
def split (breaks : Char → Char → List Char → Bool) : List Char → List Char
  | [] => []
  | c :: cs => c :: splitBehind breaks c cs

/-- Whether a character is the last capital of several, with a small letter behind it. -/
def endsRun (before c : Char) (after : List Char) : Bool :=
  before.isUpper && c.isUpper && after.head?.any Char.isLower

/-- Whether a character is a capital behind a small letter or a digit. -/
def isHump (before c : Char) (_ : List Char) : Bool :=
  (before.isLower || before.isDigit) && c.isUpper

theorem splitWords_eq (cs : List Char) : splitWords cs = split beginsWord cs := by
  induction cs using splitWords.induct with
  | case1 => rfl
  | case2 => rfl
  | case3 before c after hbegins ih => simp only [splitWords, split, splitBehind, if_pos hbegins, ih]
  | case4 before c after hbegins ih => simp only [splitWords, split, splitBehind, if_neg hbegins, ih]

section

variable {breaks : Char → Char → List Char → Bool} {before c : Char} {cs after : List Char}

theorem splitBehind_of_not (h : breaks before c after = false) :
    splitBehind breaks before (c :: after) = split breaks (c :: after) := by
  rw [splitBehind, if_neg (by simp [h]), split]

/-- Where there is no break, a pass goes on as if it began there. -/
theorem splitBehind_of_head (h : ∀ c after, cs = c :: after → breaks before c after = false) :
    splitBehind breaks before cs = split breaks cs := by
  cases cs with
  | nil => rfl
  | cons c after => exact splitBehind_of_not (h c after rfl)

end

/-! ## The two patterns -/

namespace Finder

variable {test : Char → Bool} {next : Finder} {cs out rest : List Char}

theorem mark_eq_some : mark next cs = some (out, rest) ↔ ∃ more, next cs = some (more, rest) ∧ out = '_' :: more := by
  simp [mark, eq_comm]

theorem one_eq_some : one test next cs = some (out, rest) ↔
    ∃ c tail more, cs = c :: tail ∧ test c = true ∧ next tail = some (more, rest) ∧ out = c :: more := by
  cases cs with
  | nil => simp [one]
  | cons c tail =>
    rw [one]
    constructor
    · intro h
      split at h
      · obtain ⟨_, hnext, heq⟩ := Option.map_eq_some_iff.mp h
        cases heq
        exact ⟨c, tail, _, rfl, ‹_›, hnext, rfl⟩
      · cases h
    · rintro ⟨_, _, more, heq, hc, hnext, rfl⟩
      cases heq
      rw [if_pos hc, hnext]
      rfl

/-- What the end of the first pattern finds, behind the capitals that may be repeated. -/
theorem lastCapital_end_eq_some :
    mark (one Char.isUpper (one Char.isLower done)) cs = some (out, rest) ↔
      ∃ u l, cs = u :: l :: rest ∧ u.isUpper = true ∧ l.isLower = true ∧ out = ['_', u, l] := by
  simp only [mark_eq_some, one_eq_some, done, Option.some.injEq, Prod.mk.injEq]
  constructor
  · rintro ⟨_, ⟨u, _, _, rfl, hu, ⟨l, tail, _, rfl, hl, ⟨rfl, rfl⟩, rfl⟩, rfl⟩, rfl⟩
    exact ⟨u, l, rfl, hu, hl, rfl⟩
  · rintro ⟨u, l, rfl, hu, hl, rfl⟩
    exact ⟨_, ⟨u, _, _, rfl, hu, ⟨l, rest, _, rfl, hl, ⟨rfl, rfl⟩, rfl⟩, rfl⟩, rfl⟩

theorem hump_eq_some : hump cs = some (out, rest) ↔
    ∃ a u, cs = a :: u :: rest ∧ (a.isLower || a.isDigit) = true ∧ u.isUpper = true ∧ out = [a, '_', u] := by
  simp only [hump, mark_eq_some, one_eq_some, done, Option.some.injEq, Prod.mk.injEq]
  constructor
  · rintro ⟨a, _, _, rfl, ha, ⟨_, ⟨u, tail, _, rfl, hu, ⟨rfl, rfl⟩, rfl⟩, rfl⟩, rfl⟩
    exact ⟨a, u, rfl, ha, hu, rfl⟩
  · rintro ⟨a, u, rfl, ha, hu, rfl⟩
    exact ⟨a, _, _, rfl, ha, ⟨_, ⟨u, rest, _, rfl, hu, ⟨rfl, rfl⟩, rfl⟩, rfl⟩, rfl⟩

/-- How the first pattern finds something: behind its first capital it finds more, or it ends there. -/
theorem lastCapital_cons_eq_some {c : Char} : lastCapital (c :: cs) = some (out, rest) ↔
    c.isUpper = true ∧ ∃ more, out = c :: more ∧ (lastCapital cs = some (more, rest) ∨
      lastCapital cs = none ∧ ∃ u l, cs = u :: l :: rest ∧ u.isUpper = true ∧ l.isLower = true ∧
        more = ['_', u, l]) := by
  -- What is found behind the capital, with the longer run tried first.
  have hmore : (∃ more, (lastCapital cs <|> mark (one Char.isUpper (one Char.isLower done)) cs) = some (more, rest) ∧
        out = c :: more) ↔
      ∃ more, out = c :: more ∧ (lastCapital cs = some (more, rest) ∨
        lastCapital cs = none ∧ ∃ u l, cs = u :: l :: rest ∧ u.isUpper = true ∧ l.isLower = true ∧
          more = ['_', u, l]) := by
    refine exists_congr fun more => ?_
    rw [and_comm, Option.orElse_eq_some, lastCapital_end_eq_some]
  rw [lastCapital, many, ← lastCapital]
  split
  · rename_i hc
    rw [Option.map_eq_some_iff, ← hmore]
    constructor
    · rintro ⟨found, hfound, heq⟩
      cases heq
      exact ⟨hc, _, hfound, rfl⟩
    · rintro ⟨-, more, hfound, rfl⟩
      exact ⟨_, hfound, rfl⟩
  · rename_i hc
    exact ⟨nofun, fun h => absurd h.1 hc⟩

/-- What the first pattern finds begins with two capitals. -/
theorem exists_of_lastCapital (h : lastCapital cs = some (out, rest)) :
    ∃ a b more, cs = a :: b :: more ∧ a.isUpper = true ∧ b.isUpper = true := by
  cases cs with
  | nil => cases h
  | cons c cs =>
    obtain ⟨hc, more, -, h | ⟨-, u, l, rfl, hu, -⟩⟩ := lastCapital_cons_eq_some.mp h
    · cases cs with
      | nil => cases h
      | cons d ds => exact ⟨c, d, ds, rfl, hc, (lastCapital_cons_eq_some.mp h).1⟩
    · exact ⟨c, u, l :: rest, rfl, hc, hu⟩

end Finder

/-! ## Two passes for two patterns -/

section

variable {before c : Char} {cs ds out rest after : List Char}

theorem endsRun_of_not_isUpper (h : before.isUpper = false) : endsRun before c after = false := by
  simp [endsRun, h]

theorem endsRun_of_isUpper_head {d : Char} (h : d.isUpper = true) : endsRun before c (d :: after) = false := by
  simp [endsRun, Char.not_isLower_of_isUpper h]

theorem isHump_of_isUpper (h : before.isUpper = true) : isHump before c after = false := by
  have hdigit : before.isDigit = false := isDigit_of_isAlpha (by rw [Char.isAlpha, h, Bool.true_or])
  simp [isHump, Char.not_isLower_of_isUpper h, hdigit]

/-- What the first pattern finds, the first pass splits, and it goes on behind that. -/
theorem split_of_lastCapital (h : Finder.lastCapital cs = some (out, rest)) :
    rest.length < cs.length ∧ split endsRun cs = out ++ split endsRun rest := by
  induction cs generalizing out with
  | nil => cases h
  | cons c cs ih =>
    obtain ⟨hc, more, rfl, h | ⟨-, u, l, rfl, hu, hl, rfl⟩⟩ := Finder.lastCapital_cons_eq_some.mp h
    · -- Two capitals follow, so the run goes on.
      obtain ⟨hshort, hsplit⟩ := ih h
      obtain ⟨a, b, more, rfl, -, hb⟩ := Finder.exists_of_lastCapital h
      refine ⟨hshort.trans (Nat.lt_succ_self _), ?_⟩
      rw [split, splitBehind_of_not (endsRun_of_isUpper_head hb), hsplit, List.cons_append]
    · -- The underscore goes here, and none goes at the small letter or behind it.
      have hlower : l.isUpper = false := Bool.eq_false_iff.mpr (Char.not_isUpper_of_isLower hl)
      have hends : endsRun c u (l :: rest) = true := by simp [endsRun, hc, hu, hl]
      refine ⟨by simp only [List.length_cons]; omega, ?_⟩
      rw [split, splitBehind, if_pos hends, splitBehind, if_neg (by simp [endsRun, hlower])]
      rw [splitBehind_of_head fun _ _ _ => endsRun_of_not_isUpper hlower]
      rfl

/-- Where the first pattern finds nothing, no underscore goes behind the first character. -/
theorem endsRun_of_lastCapital {d : Char} (h : Finder.lastCapital (c :: d :: after) = none) :
    endsRun c d after = false := by
  rw [Bool.eq_false_iff]
  intro hends
  simp only [endsRun, Bool.and_eq_true, Option.any_eq_true] at hends
  obtain ⟨⟨hc, hd⟩, l, hhead, hl⟩ := hends
  obtain ⟨rest, rfl⟩ : ∃ rest, after = l :: rest := List.head?_eq_some_iff.mp hhead
  have hfound : ∃ out rest', Finder.lastCapital (c :: d :: l :: rest) = some (out, rest') := by
    cases hrest : Finder.lastCapital (d :: l :: rest) with
    | some found => exact ⟨_, _, Finder.lastCapital_cons_eq_some.mpr ⟨hc, _, rfl, .inl hrest⟩⟩
    | none => exact ⟨_, _, Finder.lastCapital_cons_eq_some.mpr ⟨hc, _, rfl, .inr ⟨hrest, d, l, rfl, hd, hl, rfl⟩⟩⟩
  obtain ⟨_, _, hfound⟩ := hfound
  rw [h] at hfound
  cases hfound

/-- **The first pass makes the first substitution.** -/
theorem replaces_lastCapital_iff : Finder.lastCapital.Replaces cs ds ↔ ds = split endsRun cs := by
  refine Finder.replaces_iff rfl rfl (fun _ _ _ => split_of_lastCapital) fun c cs hnone => ?_
  rw [split, splitBehind_of_head]
  rintro d after rfl
  exact endsRun_of_lastCapital hnone

/-- **The second pass makes the second substitution.** -/
theorem replaces_hump_iff : Finder.hump.Replaces cs ds ↔ ds = split isHump cs := by
  refine Finder.replaces_iff rfl rfl ?_ ?_
  · intro cs out rest h
    obtain ⟨a, u, rfl, ha, hu, rfl⟩ := Finder.hump_eq_some.mp h
    refine ⟨by simp only [List.length_cons]; omega, ?_⟩
    rw [split, splitBehind, if_pos (by simp only [isHump, ha, hu, Bool.and_self])]
    rw [splitBehind_of_head fun _ _ _ => isHump_of_isUpper hu]
    rfl
  · intro c cs hnone
    rw [split, splitBehind_of_head]
    rintro d after rfl
    rw [isHump, Bool.and_eq_false_imp]
    intro hc
    by_contra hd
    rw [Finder.hump_eq_some.mpr ⟨c, d, rfl, hc, Bool.eq_true_of_not_eq_false hd, rfl⟩] at hnone
    cases hnone

/-- The second pass behind the first one makes the breaks of both. -/
theorem splitBehind_isHump_splitBehind_endsRun (before : Char) (cs : List Char) :
    splitBehind isHump before (splitBehind endsRun before cs) = splitBehind beginsWord before cs := by
  induction cs generalizing before with
  | nil => rfl
  | cons c after ih =>
    have hbreaks : beginsWord before c after = (isHump before c (splitBehind endsRun c after) ||
        endsRun before c after) := by
      simp only [beginsWord, isHump, endsRun]
      cases before.isUpper <;> cases c.isUpper <;> simp
    cases hends : endsRun before c after with
    | true =>
      -- The underscore of the first pass is neither a capital nor what a capital stands behind.
      have hmark : isHump before '_' (c :: splitBehind endsRun c after) = false := by
        rw [isHump, Bool.and_eq_false_imp]
        exact fun _ => rfl
      have hbehind : isHump '_' c (splitBehind endsRun c after) = false := rfl
      simp only [splitBehind, hbreaks, hends, hmark, hbehind, ih, Bool.or_true, if_true, if_false, Bool.false_eq_true]
    | false => simp only [splitBehind, hbreaks, hends, ih, Bool.or_false, if_false, Bool.false_eq_true]

/-- **The words of an identifier are what the two substitutions make of it**, one after the other. -/
theorem exists_replaces_iff :
    (∃ once, Finder.lastCapital.Replaces cs once ∧ Finder.hump.Replaces once ds) ↔ ds = splitWords cs := by
  have hboth : split isHump (split endsRun cs) = split beginsWord cs := by
    cases cs with
    | nil => rfl
    | cons c after => exact congrArg _ (splitBehind_isHump_splitBehind_endsRun c after)
  simp only [replaces_lastCapital_iff, replaces_hump_iff, exists_eq_left, hboth, splitWords_eq]

end

end SimpleBinary.Identifier
