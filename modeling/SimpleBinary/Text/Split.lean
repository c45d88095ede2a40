/-!
Texts cut at every occurrence of a code point, or before a line end behind them.
-/

set_option autoImplicit false

namespace SimpleBinary.Text

variable {α : Type} [DecidableEq α]

/-- The parts of a list between the occurrences of a mark; there is one more than there are
occurrences. -/
def split (mark : α) : List α → List (List α)
  | [] => [[]]
  | c :: rest =>
    match split mark rest with
    | [] => [[c]]
    | part :: parts => if c = mark then [] :: part :: parts else (c :: part) :: parts

/-- A text without one line end behind it. -/
def withoutBreak (cs : List Char) : List Char :=
  if cs.getLast? = some '\n' then cs.dropLast else cs

theorem length_split (mark : α) (cs : List α) :
    (split mark cs).length = cs.count mark + 1 := by
  induction cs with
  | nil => rfl
  | cons c rest ih =>
    rw [split]
    split
    · next h => simp [h] at ih
    · next part parts h =>
      rw [h] at ih
      by_cases hc : c = mark
      · simp_all
      · simp_all

end SimpleBinary.Text
