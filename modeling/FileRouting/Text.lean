/-!
# Text

Text is the list of its characters, so that every rule of this library is a recursion on data. This
module holds the few operations that routes, requests and directory names share:

* `dropFront?` removes a given front, and `dropFront?_eq_some_iff` says that this undoes appending
  it;
* `Text.cut` splits a text at the first occurrence of a character;
* `Text.components` are the non-empty pieces between slashes, and `Text.slashed` writes components
  back with a slash before each.
-/

namespace FileRouting

/-- What follows `front` in a list that starts with it. -/
def dropFront? {α : Type} [DecidableEq α] : (front list : List α) → Option (List α)
  | [], list => some list
  | _ :: _, [] => none
  | a :: front, b :: list => if a = b then dropFront? front list else none

theorem dropFront?_eq_some_iff {α : Type} [DecidableEq α] {front list rest : List α} :
    dropFront? front list = some rest ↔ list = front ++ rest := by
  induction front generalizing list with
  | nil => simp [dropFront?]
  | cons a front ih =>
      cases list with
      | nil => simp [dropFront?]
      | cons b list =>
          by_cases h : a = b
          · simp [dropFront?, h, ih]
          · simp [dropFront?, h, Ne.symm h]

@[simp] theorem dropFront?_append {α : Type} [DecidableEq α] (front rest : List α) :
    dropFront? front (front ++ rest) = some rest :=
  dropFront?_eq_some_iff.2 rfl

/-- A text, as the list of its characters. -/
abbrev Text := List Char

namespace Text

/-- The pieces of a text between its slashes, empty ones included. -/
def pieces (t : Text) : List Text := t.splitOn '/'

/-- The pieces of a text between its slashes, without the empty ones. -/
def components (t : Text) : List Text := t.pieces.filter (· ≠ [])

/-- The components one after the other, each with a slash before it. -/
def slashed (parts : List Text) : Text := parts.flatMap ('/' :: ·)

/-- The text before the first `c`, and the text behind it if there is a `c` at all. -/
def cut (c : Char) : Text → Text × Option Text
  | [] => ([], none)
  | d :: t => if d = c then ([], some t) else ((d :: (cut c t).1), (cut c t).2)

theorem cut_eq_none {c : Char} {t : Text} (h : c ∉ t) : cut c t = (t, none) := by
  induction t with
  | nil => rfl
  | cons d t ih =>
      simp only [List.mem_cons, not_or] at h
      simp [cut, Ne.symm h.1, ih h.2]

theorem cut_append {c : Char} {before : Text} (h : c ∉ before) (behind : Text) :
    cut c (before ++ c :: behind) = (before, some behind) := by
  induction before with
  | nil => simp [cut]
  | cons d before ih =>
      simp only [List.mem_cons, not_or] at h
      simp [cut, Ne.symm h.1, ih h.2]

@[simp] theorem slashed_nil : slashed [] = [] := rfl

@[simp] theorem slashed_cons (part : Text) (parts : List Text) :
    slashed (part :: parts) = '/' :: part ++ slashed parts := by
  simp [slashed]

theorem ne_nil_of_mem_components {t part : Text} (h : part ∈ t.components) : part ≠ [] := by
  simpa using (List.mem_filter.1 h).2

end Text

end FileRouting
