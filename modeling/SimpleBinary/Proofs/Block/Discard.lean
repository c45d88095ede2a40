import SimpleBinary.Codec.Entity
import SimpleBinary.Proofs.Block.Basic
import SimpleBinary.Proofs.Block.Known

/-!
What the source of a gap and of the extension skip throws away.

Both become statements that compare the acting version, look at the length that was received, and throw
bytes away. Run with numbers for these names, the statements of a gap throw away its size or nothing,
and those of the extension skip what is beyond the length that the acting version knows. The nested
choice of that length has its entries from the last to the first (`number?_knownLength`).
-/

set_option autoImplicit false

namespace SimpleBinary

theorem Emission.bind_ok {α β : Type} {x : Emission α} {f : α → Emission β} {b : β} :
    (x >>= f).outcome = .ok b ↔ ∃ a, x.outcome = .ok a ∧ (f a).outcome = .ok b := by
  cases h : x.outcome with
  | ok a => simp [bind_of_ok f h]
  | error fault => simp [bind_of_error f h]

/-! ## Runs -/

namespace Code

/-- The numbers that names stand for. -/
abbrev Numbers := String → Option Int

mutual

/-- The number that an expression stands for. -/
def Expr.number? (names : Numbers) : Expr → Option Int
  | .int value => value
  | .name identifier => names identifier
  | .binary .subtract left right => do
    return (← left.number? names) - (← right.number? names)
  | .choose test yes no => do
    if ← test.holds? names then yes.number? names else no.number? names
  | _ => none

/-- Whether a comparison holds. -/
def Expr.holds? (names : Numbers) : Expr → Option Bool
  | .binary .atLeast left right => do
    return decide ((← right.number? names) ≤ (← left.number? names))
  | .binary .greater left right => do
    return decide ((← right.number? names) < (← left.number? names))
  | _ => none

end

mutual

/-- The names after a statement, and the number of bytes that it throws away. -/
def Stmt.discarded? (names : Numbers) : Stmt → Option (Numbers × Int)
  | .assign (.name target) value => do
    let number ← value.number? names
    return (fun name => if name = target then some number else names name, 0)
  | .run (.call (.name function) [.name "reader", size]) => do
    guard (function = Helper.discard.name)
    return (names, ← size.number? names)
  | .branch test yes no => do
    if ← test.holds? names then discardedBy? names yes else discardedBy? names no
  | _ => none

/-- The names after several statements, and the number of bytes that they throw away. -/
def discardedBy? (names : Numbers) : List Stmt → Option (Numbers × Int)
  | [] => some (names, 0)
  | stmt :: rest => do
    let (names, first) ← stmt.discarded? names
    let (names, others) ← discardedBy? names rest
    return (names, first + others)

end

section

variable {names : Numbers}

@[simp] theorem discardedBy?_nil : discardedBy? names [] = some (names, 0) := rfl

/-- Two parts of a run, one after the other. -/
theorem discardedBy?_cons {stmt : Stmt} {rest : List Stmt} {after last : Numbers} {first others : Int}
    (hfirst : stmt.discarded? names = some (after, first))
    (hrest : discardedBy? after rest = some (last, others)) :
    discardedBy? names (stmt :: rest) = some (last, first + others) := by
  simp [discardedBy?, hfirst, hrest]

/-- A statement on its own. -/
theorem discardedBy?_singleton (stmt : Stmt) : discardedBy? names [stmt] = stmt.discarded? names := by
  rw [discardedBy?]
  cases stmt.discarded? names <;> simp

theorem discarded?_discard {size : Expr} {n : Int} (h : size.number? names = some n) :
    (Codec.discard size).discarded? names = some (names, n) := by
  simp [Codec.discard, Expr.apply, Stmt.discarded?, h]

theorem discarded?_branch {test : Expr} {holds : Bool} {yes no : List Stmt}
    (h : test.holds? names = some holds) :
    (Stmt.branch test yes no).discarded? names = discardedBy? names (if holds then yes else no) := by
  cases holds <;> simp [Stmt.discarded?, h]

end

end Code

/-! ## Bytes that steps take -/

/-- The number of bytes that a step takes from the fixed block when a message of a version is read, with
a block of the given length: a field and the gap in front of it are there from the version of the field
on, the padding behind the fields is left to the extension skip, and this takes what is beyond the length
that the version knows. -/
def Step.taken (version received : Int) : Step → Int
  | .gap size since trailing =>
    if trailing then 0 else if (since.filter (· != 0)).all (· ≤ version) then size else 0
  | .extensionSkip known => max 0 (received - (knownAt version known).getD 0)
  | s =>
    match s.wire? with
    | some (field, type) =>
      if field.version.any (· ≤ version) then type.encodedLength.getD 0 else 0
    | none => 0

/-- Whether a step is rendered to statements that only throw bytes away. -/
def Step.isThrownAway : Step → Bool
  | .gap .. | .extensionSkip _ => true
  | _ => false

namespace Codec

variable {names : Code.Numbers} {version received : Int}

open Code

theorem holds?_isSince (hversion : names "acting_version" = some version) (since : Int) :
    (isSince since).holds? names = some (decide (since ≤ version)) := by
  simp [isSince, Expr.holds?, Expr.number?, Expr.count, hversion]

/-- **The choice of the known length** gives that of the last entry whose version is reached. -/
theorem number?_knownLength (hversion : names "acting_version" = some version) (first : Int)
    (later : List (Int × Int)) :
    (knownLength first later).number? names = some ((knownAt version later).getD first) := by
  -- The last entry is the outermost choice, so the induction is from the back.
  induction later using List.reverseRecOn with
  | nil => rfl
  | append_singleton later entry ih =>
    rw [knownLength, List.foldl_append, ← knownLength, List.foldl_cons, List.foldl_nil, Expr.number?,
      holds?_isSince hversion, ih, knownAt_concat]
    by_cases h : entry.1 ≤ version <;> simp [h, Expr.count, Expr.number?]

theorem discarded?_discardSince (hversion : names "acting_version" = some version)
    (since : Option Int) (size : Int) :
    (discardSince since size).discarded? names =
      some (names, if (since.filter (· != 0)).all (· ≤ version) then size else 0) := by
  have hsize : (Expr.count size).number? names = some size := rfl
  rw [discardSince]
  split
  · rename_i u hu
    rw [discarded?_branch (holds?_isSince hversion u), hu, Option.all_some]
    by_cases h : u ≤ version <;> simp [h, discardedBy?_singleton, discarded?_discard hsize]
  · rename_i hnone
    rw [hnone, discarded?_discard hsize]
    rfl

theorem discarded?_discardBeyond (hreceived : names "block_length" = some received) {length : Expr}
    {n : Int} (hlength : length.number? names = some n) :
    (discardBeyond length).discarded? names = some (names, max 0 (received - n)) := by
  have htest : (Expr.binary .greater (.name "block_length") length).holds? names =
      some (decide (n < received)) := by
    simp [Expr.holds?, Expr.number?, hreceived, hlength]
  have hsize : (Expr.binary .subtract (.name "block_length") length).number? names =
      some (received - n) := by
    simp [Expr.number?, hreceived, hlength]
  rw [discardBeyond, discarded?_branch htest]
  by_cases h : n < received
  · have hmax : max 0 (received - n) = received - n := by omega
    rw [decide_eq_true h, if_pos rfl, discardedBy?_singleton, discarded?_discard hsize, hmax]
  · have hmax : max 0 (received - n) = 0 := by omega
    rw [decide_eq_false h, if_neg (by simp), discardedBy?_nil, hmax]

/-- The statements of a gap throw away what the gap takes. -/
theorem discardedBy?_gapBodies {size : Int} {since : Option Int} {trailing : Bool} {bodies : Bodies}
    (h : (gapBodies true size since trailing).outcome = .ok bodies)
    (hversion : names "acting_version" = some version) :
    discardedBy? names bodies.decode =
      some (names, (Step.gap size since trailing).taken version received) := by
  rw [gapBodies] at h
  obtain ⟨_, -, h₁⟩ := Emission.bind_ok.mp h
  obtain ⟨_, -, h₂⟩ := Emission.bind_ok.mp h₁
  cases trailing with
  | true =>
    obtain rfl := Except.ok.inj h₂
    rfl
  | false =>
    obtain ⟨_, -, h₃⟩ := Emission.bind_ok.mp h₂
    obtain ⟨_, -, h₄⟩ := Emission.bind_ok.mp h₃
    obtain rfl := Except.ok.inj h₄
    rw [discardedBy?_singleton, discarded?_discardSince hversion]
    rfl

/-- The statements of the extension skip throw away what the skip takes. -/
theorem discardedBy?_skipBodies {known : List (Int × Int)} {bodies : Bodies} {n : Int}
    (h : (skipBodies known).outcome = .ok bodies) (hknown : knownAt version known = some n)
    (hversion : names "acting_version" = some version)
    (hreceived : names "block_length" = some received) :
    ∃ after, discardedBy? names bodies.decode =
      some (after, (Step.extensionSkip known).taken version received) := by
  rw [Step.taken, hknown, Option.getD_some]
  rw [skipBodies.eq_def] at h
  obtain ⟨_, -, h₁⟩ := Emission.bind_ok.mp h
  obtain ⟨_, -, h₂⟩ := Emission.bind_ok.mp h₁
  split at h₂
  · cases hknown
  · rename_i u length
    obtain rfl := Except.ok.inj h₂
    have hlength : (Expr.count length).number? names = some n := by
      rw [← hknown]
      by_cases hu : u ≤ version <;> simp [knownAt, hu, Expr.count, Expr.number?] at hknown ⊢
    exact ⟨names, by rw [discardedBy?_singleton, discarded?_discardBeyond hreceived hlength]⟩
  · rename_i u first later _
    obtain ⟨_, -, h₃⟩ := Emission.bind_ok.mp h₂
    obtain rfl := Except.ok.inj h₃
    have hlength : (knownLength first later).number? names = some n := by
      rw [number?_knownLength hversion, ← hknown]
      by_cases hu : u ≤ version
      · rw [knownAt_cons_of_le hu]
      · rw [knownAt_cons_of_lt (by simpa using hu)] at hknown ⊢
        rw [hknown, Option.getD_some]
    -- The length has a name of its own here, which no other name is lost for.
    let after : Numbers := fun name => if name = "known_length" then some n else names name
    have hassign : (Stmt.assign (.name "known_length") (knownLength first later)).discarded? names =
        some (after, 0) := by
      simp [Stmt.discarded?, hlength, after]
    have hlonger : after "block_length" = some received := by simp [after, hreceived]
    have hbeyond : (discardBeyond (.name "known_length")).discarded? after =
        some (after, max 0 (received - n)) :=
      discarded?_discardBeyond hlonger rfl
    refine ⟨after, ?_⟩
    rw [discardedBy?_cons hassign ((discardedBy?_singleton _).trans hbeyond), Int.zero_add]

end Codec

/-- **What is thrown away for a step is what the step takes.** -/
theorem Step.discardedBy?_bodies {step : Step} {owner : String} {bodies : Bodies}
    {names : Code.Numbers} {version received : Int}
    (h : (step.bodies owner true).outcome = .ok bodies) (hstep : step.isThrownAway = true)
    (hknown : ∀ known, step = .extensionSkip known → (knownAt version known).isSome)
    (hversion : names "acting_version" = some version)
    (hreceived : names "block_length" = some received) :
    ∃ after, Code.discardedBy? names bodies.decode = some (after, step.taken version received) := by
  cases step with
  | gap size since trailing => exact ⟨names, Codec.discardedBy?_gapBodies h hversion⟩
  | extensionSkip known =>
    obtain ⟨n, hn⟩ := Option.isSome_iff_exists.mp (hknown known rfl)
    exact Codec.discardedBy?_skipBodies h hn hversion hreceived
  | _ => cases hstep

end SimpleBinary
