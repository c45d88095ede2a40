import SimpleBinary.Proofs.Class.Source
import Mathlib

/-!
The attributes of a method.

Which attributes of its object a method goes through is read off its source, in the order of the source:
those that it sets, on each way through its branches (`Stmt.Sets`), those whose values it evaluates
(`Stmt.attributes`), and those that it checks (`Stmt.checked`). Statements that follow each other go through
their attributes one after the other.
-/

set_option autoImplicit false

namespace SimpleBinary

namespace Code

mutual

/-- The attributes of the object itself that a statement sets, for each way that it can take. An object
in an attribute that reads itself counts as set. -/
def Stmt.sets : Stmt → List (List String)
  | .assign target _ => [target.own?.toList]
  | .unpack targets _ _ => [targets.filterMap Expr.own?]
  | .update target _ _ => [target.own?.toList]
  | .run (.call (.member value "decode") _) => [value.own?.toList]
  | .branch _ yes no => Stmt.setsAll yes ++ Stmt.setsAll no
  | .loop _ _ body => [] :: Stmt.setsAll body
  | _ => [[]]

/-- The attributes that several statements set, for each way through them. -/
def Stmt.setsAll : List Stmt → List (List String)
  | [] => [[]]
  | s :: rest => s.sets.flatMap fun first => (Stmt.setsAll rest).map (first ++ ·)

end

/-- Whether statements set certain attributes in this order, whichever way is taken. -/
def Stmt.Sets (stmts : List Stmt) (attributes : List String) : Prop :=
  ∀ sequence, sequence ∈ Stmt.setsAll stmts ↔ sequence = attributes

/-- The attributes whose values statements evaluate, without what is skipped. -/
def Stmt.attributes (skip : Expr → Bool) (stmts : List Stmt) : List String :=
  (Stmt.partsAll skip stmts).filterMap Expr.own?

/-- Whether an expression only asks for a number of items. -/
def Expr.isLength : Expr → Bool
  | .call (.name "len") _ => true
  | _ => false

/-- The attributes that statements check one after the other. A limit on the number of items and the loop
that checks them are one check. -/
def Stmt.checked : List Stmt → List String
  | [] => []
  | .branch (.binary .greater (.call (.name "len") [value]) limit) yes no ::
      .loop targets source body :: rest =>
    (Stmt.attributes Expr.never [.branch (.binary .greater (.call (.name "len") [value]) limit) yes no,
      .loop targets source body]).dedup ++ Stmt.checked rest
  | s :: rest => (Stmt.attributes Expr.never [s]).dedup ++ Stmt.checked rest

/-- Whether a statement sets an attribute, on all ways through the method. -/
def Stmt.isSetting : Stmt → Bool
  | .assign target _ => target.own?.isSome
  | _ => false

/-- Whether a statement lets the object set its constants. -/
def Stmt.callsInit : Stmt → Bool
  | .run (.call (.member (.name "self") "init") _) => true
  | _ => false

/-! ### Statements that follow each other -/

namespace Stmt

theorem mem_setsAll_cons {s : Stmt} {rest : List Stmt} {sequence : List String} :
    sequence ∈ setsAll (s :: rest) ↔ ∃ a ∈ s.sets, ∃ b ∈ setsAll rest, a ++ b = sequence := by
  simp [setsAll]

theorem mem_setsAll_append {a b : List Stmt} {sequence : List String} :
    sequence ∈ setsAll (a ++ b) ↔ ∃ x ∈ setsAll a, ∃ y ∈ setsAll b, x ++ y = sequence := by
  induction a generalizing sequence with
  | nil => simp [setsAll]
  | cons s rest ih =>
    rw [List.cons_append, mem_setsAll_cons]
    constructor
    · rintro ⟨x, hx, y, hy, rfl⟩
      obtain ⟨u, hu, v, hv, rfl⟩ := ih.mp hy
      exact ⟨x ++ u, mem_setsAll_cons.mpr ⟨x, hx, u, hu, rfl⟩, v, hv, List.append_assoc ..⟩
    · rintro ⟨z, hz, v, hv, rfl⟩
      obtain ⟨x, hx, u, hu, rfl⟩ := mem_setsAll_cons.mp hz
      exact ⟨x, hx, u ++ v, ih.mpr ⟨u, hu, v, hv, rfl⟩, (List.append_assoc ..).symm⟩

theorem Sets.append {a b : List Stmt} {x y : List String} (ha : Sets a x) (hb : Sets b y) :
    Sets (a ++ b) (x ++ y) := by
  intro sequence
  rw [mem_setsAll_append]
  constructor
  · rintro ⟨u, hu, v, hv, rfl⟩
    rw [(ha u).mp hu, (hb v).mp hv]
  · rintro rfl
    exact ⟨x, (ha x).mpr rfl, y, (hb y).mpr rfl, rfl⟩

theorem sets_nil : Sets [] [] := by
  simp [Sets, setsAll]

theorem attributes_append (skip : Expr → Bool) (a b : List Stmt) :
    attributes skip (a ++ b) = attributes skip a ++ attributes skip b := by
  rw [attributes, partsAll_append, List.filterMap_append]
  rfl

/-- Checks go on at a statement that is no loop. -/
theorem checked_append (a : List Stmt) {b : List Stmt}
    (hb : ∀ targets source body rest, b ≠ .loop targets source body :: rest) :
    checked (a ++ b) = checked a ++ checked b := by
  induction a using checked.induct with
  | case1 => simp [checked]
  | case2 value limit yes no targets source body rest ih =>
    rw [List.cons_append, List.cons_append, checked, checked, ih, List.append_assoc]
  | case3 s rest hpair ih =>
    -- The first statement is no limit in front of a loop, and it does not become one by what follows.
    rw [List.cons_append, checked, checked, ih, List.append_assoc]
    · exact hpair
    · intro value limit yes no targets source body others hs hrest
      cases rest with
      | nil => exact hb _ _ _ _ hrest
      | cons first rest =>
        obtain ⟨rfl, rfl⟩ := List.cons.inj hrest
        exact hpair _ _ _ _ _ _ _ _ hs rfl

/-! ### One attribute -/

/-- What is set is the same on all ways. -/
theorem sets_of_replicate {stmts : List Stmt} {attributes : List String} (n : Nat)
    (h : setsAll stmts = List.replicate (n + 1) attributes) : Sets stmts attributes := by
  intro sequence
  rw [h, List.mem_replicate]
  simp

theorem attributes_branch (skip : Expr → Bool) (test : Expr) (yes no : List Stmt) :
    attributes skip [.branch test yes no] =
      (test.parts skip).filterMap Expr.own? ++ attributes skip yes ++ attributes skip no := by
  simp [attributes, partsAll, parts]

theorem checked_singleton (s : Stmt) : checked [s] = (attributes Expr.never [s]).dedup := by
  rw [checked, checked, List.append_nil]
  simp

theorem checked_of_replicate {s : Stmt} {name : String} (n : Nat)
    (h : attributes Expr.never [s] = List.replicate (n + 1) name) : checked [s] = [name] := by
  rw [checked_singleton, h, List.replicate_dedup (Nat.succ_ne_zero n)]

/-- Statements that read one attribute only. -/
theorem mem_attributes_of_replicate {stmts : List Stmt} {name : String} (n : Nat)
    (h : attributes Expr.never stmts = List.replicate n name) :
    ∀ a ∈ attributes Expr.never stmts, a ∈ [name] := by
  intro a ha
  rw [h] at ha
  exact List.mem_singleton.mpr (List.eq_of_mem_replicate ha)

/-- The limit on the number of elements and the check of the elements are one check. -/
theorem checked_group {value limit source : Expr} {yes no body : List Stmt} {targets : List String}
    {name : String} (n : Nat)
    (h : attributes Expr.never [.branch (.binary .greater (.call (.name "len") [value]) limit) yes no,
      .loop targets source body] = List.replicate (n + 1) name) :
    checked [.branch (.binary .greater (.call (.name "len") [value]) limit) yes no,
      .loop targets source body] = [name] := by
  rw [checked, checked, List.append_nil, h, List.replicate_dedup (Nat.succ_ne_zero n)]

end Stmt

end Code

end SimpleBinary
