import SimpleBinary.Proofs.Block.Rising
import SimpleBinary.Proofs.Class.Literals
import SimpleBinary.Proofs.Numeral.Canonical
import SimpleBinary.Proofs.Text.Parts
import SimpleBinary.Proofs.Walk.Closing

/-!
The length that the source compares the block with.

The decode body of the extension skip compares the length of the block that was received with a length of its
own. This is a number, or where several lengths are known a conditional expression that tells them apart by the
acting version. What stands in the source is the text of that expression, so it is evaluated here from its
words (`Code.chosen?`): the outermost condition is the first one of the text, and the last number is what holds
where no condition does. The text was made from the inside to the outside, so the induction is from the back
(`Codec.chosen?_knownLength`).

The main result is that this length is the right step function of the acting version, for every walk
(`Walk.skips_by_steps`): the known lengths are steps that rise up to the offset at which the block was closed,
and the text stands for the largest end of the fields that the version has. No order of the versions, and none
of the fields, is asked for.
-/

set_option autoImplicit false

namespace SimpleBinary

/-! ## Conditional expressions by their words -/

namespace Code

/-- The words of a text, with a blank between two of them. -/
def words (text : String) : List String :=
  (Text.split ' ' text.toList).map String.ofList

/-- The integer that a word spells. -/
def integer? (word : String) : Option Int :=
  (Numeral.integer .literal word).toOption

/-- The number that words stand for, with a number for the acting version: an integer, or a conditional
expression, whose value is its first integer where the condition holds, and otherwise that of the words at its
end. -/
def chosen? (version : Int) : List String → Option Int
  | [value] => integer? value
  | value :: "if" :: "acting_version" :: ">=" :: since :: "else" :: others => do
    if (← integer? since) ≤ version then integer? value else chosen? version others
  | _ => none

theorem words_append (before after : String) : words (before ++ " " ++ after) = words before ++ words after := by
  have hblank : " ".toList = [' '] := rfl
  rw [words, String.toList_append, String.toList_append, hblank, List.append_assoc, List.singleton_append,
    Text.split_append, List.map_append]
  rfl

theorem words_of_notMem {word : String} (h : ' ' ∉ word.toList) : words word = [word] := by
  rw [words, Text.split_of_notMem h, List.map_singleton, String.ofList_toList]

theorem words_count (n : Int) : words (Expr.count n).text = [toString n] :=
  words_of_notMem ((areNumerals_intToString n).not_mem (by decide))

/-- An integer that can be written is read back. -/
theorem integer?_toString {n : Int} (h : Numeral.isWritable n = true) : integer? (toString n) = some n := by
  have hrow := Numeral.row_digitChars (Numeral.digitsOf_ne_nil 10 n.natAbs) fun d hd =>
    Numeral.lt_of_mem_digitsOf (by decide) hd
  have hdecimal : Text.ofString (Numeral.decimal n) =
      Numeral.minus n ++ Text.ofChars ((Numeral.digitsOf 10 n.natAbs).map Nat.digitChar) := by
    by_cases hn : n < 0 <;> simp [Numeral.decimal, Numeral.minus, hn, Text.ofString, Text.ofChars]
  rw [integer?, Numeral.toString_eq_decimal, hdecimal, (Numeral.SpellsNat.decimal hrow).integer,
    Numeral.withinLimit, Numeral.isWritable_natAbs, if_neg (by simp [h])]
  rfl

/-- The words of a choice are those of what it has where the condition holds, of the condition, and of what it
has otherwise. -/
theorem words_choose (since length : Int) (others : Expr) :
    words (Expr.choose (Codec.isSince since) (.count length) others).text =
      toString length :: "if" :: "acting_version" :: ">=" :: toString since :: "else" :: words others.text := by
  have htext : (Expr.choose (Codec.isSince since) (.count length) others).text =
      (Expr.count length).text ++ " " ++ ("if" ++ " " ++ ("acting_version" ++ " " ++ (">=" ++ " " ++
        ((Expr.count since).text ++ " " ++ ("else" ++ " " ++ others.text))))) := by
    simp only [Expr.text, Codec.isSince, Operator.sign, String.append_assoc]
    rfl
  rw [htext]
  simp only [words_append, words_count]
  rfl

/-- Whether statements throw away what a block has beyond a length: the length is a number that stands in both
places, or it is given a name first. -/
inductive SkipsBeyond (length : Expr) : List Stmt → Prop
  | number {n : Int} : length = .count n → SkipsBeyond length [Codec.discardBeyond length]
  | named : SkipsBeyond length
      [.assign (.name "known_length") length, Codec.discardBeyond (.name "known_length")]

end Code

open Code

theorem Emission.demand_ok {areWritable : Bool} {u : Unit} :
    (demand areWritable).outcome = .ok u ↔ areWritable = true := by
  cases areWritable with
  | false => exact ⟨nofun, nofun⟩
  | true => exact ⟨fun _ => rfl, fun _ => rfl⟩

namespace Codec

variable {known : List (Int × Int)} {version : Int}

/-- **The text of the choice stands for the length that the version knows.** -/
theorem chosen?_knownLength {first : Int} {later : List (Int × Int)} (hfirst : Numeral.isWritable first = true)
    (hlater : ∀ entry ∈ later, Numeral.isWritable entry.1 = true ∧ Numeral.isWritable entry.2 = true) :
    chosen? version (words (knownLength first later).text) = some ((knownAt version later).getD first) := by
  -- The last entry is the first condition of the text, and what it leaves is the text of those before it.
  induction later using List.reverseRecOn with
  | nil =>
    rw [knownLength, List.foldl_nil, words_count, chosen?, integer?_toString hfirst]
    rfl
  | append_singleton later entry ih =>
    obtain ⟨hbefore, hentry⟩ := List.forall_mem_append.mp hlater
    obtain ⟨hsince, hlength⟩ := List.forall_mem_singleton.mp hentry
    rw [knownLength, List.foldl_append, ← knownLength, List.foldl_cons, List.foldl_nil, words_choose, chosen?,
      integer?_toString hsince, integer?_toString hlength, ih hbefore, knownAt_concat]
    by_cases h : entry.1 ≤ version <;> simp [h]

example : chosen? 2 (words (knownLength 6 [(1, 8)]).text) = some 8 := by cbv

/-- The numbers that the extension skip writes: all known lengths, and the versions behind the first one. -/
def SkipWritable (known : List (Int × Int)) : Prop :=
  (∀ entry ∈ known, Numeral.isWritable entry.2 = true) ∧ ∀ entry ∈ known.tail, Numeral.isWritable entry.1 = true

/-- For a version that knows a length, the text stands for this length. -/
theorem chosen?_of_knownAt {since first n : Int} {later : List (Int × Int)}
    (h : SkipWritable ((since, first) :: later)) (hn : knownAt version ((since, first) :: later) = some n) :
    chosen? version (words (knownLength first later).text) = some n := by
  obtain ⟨hlengths, hversions⟩ := h
  have hfirst : Numeral.isWritable first = true := hlengths (since, first) (List.mem_cons_self ..)
  have hlater : ∀ entry ∈ later, Numeral.isWritable entry.1 = true ∧ Numeral.isWritable entry.2 = true :=
    fun entry hentry => ⟨hversions entry hentry, hlengths entry (List.mem_cons_of_mem _ hentry)⟩
  rw [chosen?_knownLength hfirst hlater]
  -- The version of the first entry is not in the text, but a version that knows a length has reached some entry.
  by_cases hsince : since ≤ version
  · rw [← hn, knownAt_cons_of_le hsince]
  · rw [knownAt_cons_of_lt (by simpa using hsince)] at hn
    rw [hn, Option.getD_some]

/-- What the bodies of the extension skip throw away is beyond the choice of the known lengths. There are no
bodies where one of its numbers cannot be written. -/
theorem skipBodies_ok {bodies : Bodies} (h : (skipBodies known).outcome = .ok bodies) :
    SkipWritable known ∧ ∃ since first later, known = (since, first) :: later ∧
      SkipsBeyond (knownLength first later) bodies.decode := by
  rw [skipBodies.eq_def] at h
  obtain ⟨_, -, h⟩ := Emission.bind_ok.mp h
  obtain ⟨_, hlengths, h⟩ := Emission.bind_ok.mp h
  have hlengths := List.all_eq_true.mp (Emission.demand_ok.mp hlengths)
  split at h
  · cases h
  · obtain rfl := Except.ok.inj h
    exact ⟨⟨hlengths, List.forall_mem_nil _⟩, _, _, [], rfl, .number rfl⟩
  · obtain ⟨_, hversions, h⟩ := Emission.bind_ok.mp h
    obtain rfl := Except.ok.inj h
    exact ⟨⟨hlengths, List.all_eq_true.mp (Emission.demand_ok.mp hversions)⟩, _, _, _, rfl, .named⟩

/-- Where some length is known and the numbers can be written, there are bodies. -/
theorem exists_skipBodies (hne : known ≠ []) (h : SkipWritable known) :
    ∃ bodies, (skipBodies known).outcome = .ok bodies := by
  obtain ⟨hlengths, hversions⟩ := h
  have hdemand := (Emission.demand_ok (u := ())).mpr (List.all_eq_true.mpr hlengths)
  obtain ⟨first, later, rfl⟩ := List.exists_cons_of_ne_nil hne
  rw [skipBodies.eq_def]
  cases later with
  | nil => exact ⟨_, Emission.bind_ok.mpr ⟨(), rfl, Emission.bind_ok.mpr ⟨(), hdemand, rfl⟩⟩⟩
  | cons =>
    have hversions := (Emission.demand_ok (u := ())).mpr (List.all_eq_true.mpr hversions)
    exact ⟨_, Emission.bind_ok.mpr ⟨(), rfl, Emission.bind_ok.mpr ⟨(), hdemand,
      Emission.bind_ok.mpr ⟨(), hversions, rfl⟩⟩⟩⟩

end Codec

/-! ## The step function of a walker -/

/-- Whether known lengths are a step function of the versions, for a walker whose block they close: what the
source compares the block with is for every version the largest end of the fields that the version has. -/
structure Walker.StepFunction (w : Walker) (known : List (Int × Int)) : Prop where
  /-- From step to step both the version and the length get greater. -/
  rises : known.Pairwise fun a b => a.1 < b.1 ∧ a.2 < b.2
  /-- The last step is as long as what the walker has laid out. -/
  last : ∃ since, known.getLast? = some (since, w.offset)
  /-- The skip is put into words where its numbers can be written. -/
  written (owner : String) : (∃ bodies, ((Step.extensionSkip known).bodies owner true).outcome = .ok bodies) ↔
    Codec.SkipWritable known
  /-- The text of the length that the body compares with stands for the largest end. -/
  chosen {owner : String} {bodies : Bodies} :
    ((Step.extensionSkip known).bodies owner true).outcome = .ok bodies →
      ∃ length, SkipsBeyond length bodies.decode ∧ ∀ version, 0 ≤ version →
        chosen? version (words length.text) = some (furthestEnd version w.plan.steps)
  /-- What the body throws away is beyond that end. -/
  discards {owner : String} {bodies : Bodies} {names : Numbers} {version received : Int} :
    ((Step.extensionSkip known).bodies owner true).outcome = .ok bodies → 0 ≤ version →
      names "acting_version" = some version → names "block_length" = some received →
        ∃ after, discardedBy? names bodies.decode =
          some (after, max 0 (received - furthestEnd version w.plan.steps))

theorem Block.stepFunction {w : Walker} {known : List (Int × Int)} (h : Block w.plan.steps w.offset w.ends)
    (hknown : w.ends.knownLengths = .ok known) : w.StepFunction known := by
  have hlast := h.exists_getLast?_knownLengths hknown
  have hne : known ≠ [] := by
    rintro rfl
    simp at hlast
  constructor
  case rises => exact FieldEnds.knownLengths_rise hknown h.nodup_versions
  case last => exact hlast
  case written =>
    intro owner
    exact ⟨fun ⟨_, hbodies⟩ => (Codec.skipBodies_ok hbodies).1, Codec.exists_skipBodies hne⟩
  case chosen =>
    intro owner bodies hbodies
    obtain ⟨hwritable, since, first, later, rfl, hskips⟩ := Codec.skipBodies_ok hbodies
    refine ⟨_, hskips, fun version hversion => ?_⟩
    exact Codec.chosen?_of_knownAt hwritable (h.knownAt_eq_furthestEnd hknown hversion)
  case discards =>
    intro owner bodies names version received hbodies hversion hacting hreceived
    have hlength := h.knownAt_eq_furthestEnd hknown hversion
    have hdiscards := Codec.discardedBy?_skipBodies hbodies hlength hacting hreceived
    rwa [Step.taken, hlength, Option.getD_some] at hdiscards

/-- **The extension skip tells versions apart by a step function.** A walk can close the block of its entity
wherever it has come to. Each extension skip that it leaves, also where it is refused later on, has the steps
of the walker whose block was closed, and the plan of an extensible entity has an extension skip. -/
theorem Walk.skips_by_steps {blank : Plan} {ts : List Token} (hsteps : blank.steps = [])
    (hnonneg : ∀ t ∈ ts, ∀ length, t.encodedLength = some length → 0 ≤ length) :
    (blank.blockLength.isSome = true → (∀ t ∈ ts, t.version.isSome = true) →
      ∀ ahead w, Visits { plan := blank } ts ahead w → ∃ u, close w = .ok () u) ∧
    (∀ before known after,
      (Walker.afterWalk { plan := blank } ts).plan.steps = before ++ .extensionSkip known :: after →
        ∃ w, ClosesAt { plan := blank } ts w before known ∧ w.StepFunction known) ∧
    ∀ p, blank.ofTokens ts = .ok p → p = (Walker.afterWalk { plan := blank } ts).plan ∧
      (blank.isExtensible = true → ∃ known, .extensionSkip known ∈ p.steps) := by
  refine ⟨?_, ?_, ?_⟩
  · intro hlength hversions ahead w hvisits
    exact hvisits.exists_close hlength hversions
  · intro before known after hsplit
    obtain ⟨w, hcloses⟩ := closesAt hsteps hnonneg before known after hsplit
    obtain ⟨ahead, hvisits⟩ := hcloses.visited
    exact ⟨w, hcloses, (hvisits.block hsteps hnonneg hcloses.opened).stepFunction hcloses.known⟩
  · intro p hp
    exact ⟨(afterWalk_of_ofTokens hp).symm, fun hext => exists_skip_of_ofTokens hext hp⟩

/-! ## A sample -/

/-- The plan of a quote of twelve bytes, before its tokens are walked over. -/
def quotePlan : Plan where
  typeName := "Quote"
  kind := .message
  blockLength := some 12
  isExtensible := true
  token := none

/-- The tokens of a quote. The versions of its three fields are in no order, and the field of the last version
is the first one; the group at the end is cut off. -/
def quoteTokens : List Token := [
  { signal := .opens .field, name := "depth", tokenCount := some 3, version := some 2 },
  { signal := .encoding, name := "uint32", encodedLength := some 4 },
  { signal := .closes .field, name := "depth" },
  { signal := .opens .field, name := "price", tokenCount := some 3 },
  { signal := .encoding, name := "uint16", encodedLength := some 2 },
  { signal := .closes .field, name := "price" },
  { signal := .opens .field, name := "size", tokenCount := some 3, version := some 1 },
  { signal := .encoding, name := "uint16", encodedLength := some 2 },
  { signal := .closes .field, name := "size" },
  { signal := .opens .group, name := "lines", tokenCount := some 9 }]

theorem quoteTokens_nonneg : ∀ t ∈ quoteTokens, ∀ length, t.encodedLength = some length → 0 ≤ length := by
  simp [quoteTokens]

/-- The known lengths of an extension skip. -/
def Step.skipped? : Step → Option (List (Int × Int))
  | .extensionSkip known => some known
  | _ => none

/-- The walk over a quote is refused, but it has closed the block before: a message of the first version has six
bytes, and one of a later version has eight. -/
theorem quoteTokens_skipped :
    ∃ before after w, (Walker.afterWalk { plan := quotePlan } quoteTokens).plan.steps =
        before ++ .extensionSkip [(0, 6), (1, 8)] :: after ∧
      Walk.ClosesAt { plan := quotePlan } quoteTokens w before [(0, 6), (1, 8)] ∧
        w.StepFunction [(0, 6), (1, 8)] := by
  have hskips : (Walker.afterWalk { plan := quotePlan } quoteTokens).plan.steps.filterMap Step.skipped? =
      [[(0, 6), (1, 8)]] := by cbv
  obtain ⟨step, hmem, hstep⟩ := List.mem_filterMap.mp (hskips ▸ List.mem_singleton_self _)
  obtain rfl : step = .extensionSkip [(0, 6), (1, 8)] := by
    cases step with
    | extensionSkip known => exact congrArg _ (Option.some.inj hstep)
    | _ => cases hstep
  obtain ⟨before, after, hsplit⟩ := List.append_of_mem hmem
  obtain ⟨w, hcloses, hw⟩ := (@Walk.skips_by_steps quotePlan quoteTokens rfl quoteTokens_nonneg).2.1 _ _ _ hsplit
  exact ⟨before, after, w, hsplit, hcloses, hw⟩

end SimpleBinary
