import Mathlib
import SimpleBinary.Text.Blank
import SimpleBinary.Text.Split

/-!
Parts of texts.

What is dropped at the ends of a text is what stands there, whatever is between (`dropWhile_ends`). A text
without marks is one part, and a mark parts a text in two that are cut one by one (`split_append`).
-/

set_option autoImplicit false

namespace SimpleBinary.Text

/-! ## The ends of a text -/

theorem dropWhile_of_head? {f : CodePoint → Bool} {t : Text} (h : ∀ p ∈ t.head?, f p = false) :
    t.dropWhile f = t := by
  cases t with
  | nil => rfl
  | cons p rest => exact List.dropWhile_cons_of_neg (by simp [h p rfl])

/-- Of a text between others, only the others are dropped at the ends if they hold what is dropped and it
neither begins nor ends with that. -/
theorem dropWhile_ends {f : CodePoint → Bool} {before core after : Text} (hbefore : ∀ p ∈ before, f p = true)
    (hafter : ∀ p ∈ after, f p = true) (hfirst : ∀ p ∈ core.head?, f p = false)
    (hlast : ∀ p ∈ core.getLast?, f p = false) (hne : core ≠ []) :
    (((before ++ core ++ after).dropWhile f).reverse.dropWhile f).reverse = core := by
  have hfront : (before ++ core ++ after).dropWhile f = core ++ after := by
    rw [List.append_assoc, List.dropWhile_append_of_pos hbefore, dropWhile_of_head?]
    rwa [List.head?_append_of_ne_nil _ hne]
  have hback : (core ++ after).reverse.dropWhile f = core.reverse := by
    rw [List.reverse_append, List.dropWhile_append_of_pos (by simpa using hafter), dropWhile_of_head?]
    rwa [List.head?_reverse]
  rw [hfront, hback, List.reverse_reverse]

/-- A text that neither begins nor ends with a blank has none to be dropped. -/
theorem trim_eq_self {t : Text} (hfirst : ∀ p ∈ t.head?, isBlank p = false)
    (hlast : ∀ p ∈ t.getLast?, isBlank p = false) : t.trim = t := by
  by_cases hne : t = []
  · rw [hne]
    rfl
  · have hends := dropWhile_ends (List.forall_mem_nil _) (List.forall_mem_nil _) hfirst hlast hne
    rwa [List.nil_append, List.append_nil] at hends

/-- What ends without a blank keeps its end. -/
theorem exists_trim_append (before : Text) {after : Text} (hfirst : ∀ p ∈ after.head?, isBlank p = false)
    (hlast : ∀ p ∈ after.getLast?, isBlank p = false) (hne : after ≠ []) :
    ∃ kept, (before ++ after).trim = kept ++ after := by
  refine ⟨before.dropWhile isBlank, ?_⟩
  have hsplit : before ++ after =
      before.takeWhile isBlank ++ (before.dropWhile isBlank ++ after) ++ [] := by
    rw [List.append_nil, ← List.append_assoc, List.takeWhile_append_dropWhile]
  rw [hsplit]
  refine dropWhile_ends (fun p hp => List.mem_takeWhile_imp hp) (by simp) ?_ ?_ (by simp [hne])
  · intro p hp
    -- The first character that is kept stands in front of the end, or begins it.
    rw [List.head?_append] at hp
    cases hkept : (before.dropWhile isBlank).head? with
    | none =>
      rw [hkept] at hp
      exact hfirst p hp
    | some q =>
      rw [hkept] at hp
      obtain rfl := Option.some.inj hp
      have hnot := List.head?_dropWhile_not isBlank before
      rw [hkept] at hnot
      simpa using hnot
  · rwa [List.getLast?_append_of_ne_nil _ hne]

/-! ## Cuts -/

section

variable {α : Type} [DecidableEq α] {mark : α}

theorem split_of_notMem {cs : List α} (h : mark ∉ cs) : split mark cs = [cs] := by
  induction cs with
  | nil => rfl
  | cons c rest ih =>
    rw [List.mem_cons, not_or] at h
    rw [split, ih h.2]
    exact if_neg (Ne.symm h.1)

theorem exists_split_eq_cons (mark : α) (cs : List α) : ∃ part parts, split mark cs = part :: parts := by
  apply List.exists_cons_of_ne_nil
  intro hnil
  have hlength := length_split mark cs
  rw [hnil, List.length_nil] at hlength
  omega

theorem split_append (before after : List α) :
    split mark (before ++ mark :: after) = split mark before ++ split mark after := by
  induction before with
  | nil =>
    obtain ⟨part, parts, hparts⟩ := exists_split_eq_cons mark after
    simp [split, hparts]
  | cons c rest ih =>
    -- The first part goes on with `c`, or ends before it; the parts behind it are the same in both texts.
    obtain ⟨part, parts, hparts⟩ := exists_split_eq_cons mark rest
    rw [List.cons_append, split, ih, split, hparts]
    by_cases hc : c = mark
    · simp [hc]
    · simp [hc]

end

end SimpleBinary.Text
