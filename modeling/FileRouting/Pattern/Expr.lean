import FileRouting.Text

/-!
# Expressions over text

The expressions that route patterns and layout patterns are made of: fixed text, runs of a
character class, concatenation, alternatives, and a group that captures nothing.

An expression is read from the front of a text. `Expr.runs` lists every way to do that, as the text
taken and the text left, in order of preference: a run takes as much as it can, and an earlier
alternative goes before a later one. `Expr.source` is the written form, in which `escape` puts a
backslash before each character that has a meaning of its own.

* `mem_splits_iff` says which splits of a text a run of a class may take;
* `append_of_mem_runs` says that what is taken and what is left make up the text.
-/

namespace FileRouting

inductive CharClass where
  | digit
  | notSlash
  | notNewline
  deriving DecidableEq, Repr

namespace CharClass

def accepts : CharClass → Char → Bool
  | digit, c => c.isDigit
  | notSlash, c => c ≠ '/'
  | notNewline, c => c ≠ '\n'

def source : CharClass → Text
  | digit => "[0-9]".toList
  | notSlash => "[^/]".toList
  | notNewline => ".".toList

end CharClass

inductive Expr where
  | text (t : Text)
  | many (cls : CharClass)
  | some (cls : CharClass)
  | seq (first second : Expr)
  | alt (first second : Expr)
  | group (inner : Expr)
  deriving DecidableEq, Repr

/-- The splits of a text whose first part holds accepted characters only, the longest part first.
-/
def splits (accepts : Char → Bool) : Text → List (Text × Text)
  | [] => [([], [])]
  | c :: t =>
    if accepts c then (splits accepts t).map (fun s => (c :: s.1, s.2)) ++ [([], c :: t)]
    else [([], c :: t)]

theorem mem_splits_iff {accepts : Char → Bool} {t taken rest : Text} :
    (taken, rest) ∈ splits accepts t ↔ t = taken ++ rest ∧ ∀ c ∈ taken, accepts c := by
  induction t generalizing taken with
  | nil => cases taken <;> cases rest <;> simp [splits]
  | cons d t ih =>
      have hnil : (([] : Text), rest) = ([], d :: t) ↔ d :: t = rest := by
        rw [Prod.mk.injEq]
        exact ⟨fun h => h.2.symm, fun h => ⟨rfl, h.symm⟩⟩
      rw [splits]
      split
      · next h =>
        cases taken with
        | nil => simp [hnil]
        | cons c taken =>
            have hshort : ((c :: taken, rest) ∈ [(([] : Text), d :: t)]) = False := by simp
            simp only [List.mem_append, hshort, or_false, List.mem_map, Prod.exists, Prod.mk.injEq,
              List.cons.injEq, List.cons_append, List.mem_cons, forall_eq_or_imp]
            constructor
            · rintro ⟨_, _, hmem, ⟨rfl, rfl⟩, rfl⟩
              exact ⟨⟨rfl, (ih.1 hmem).1⟩, h, (ih.1 hmem).2⟩
            · rintro ⟨⟨rfl, htext⟩, _, hall⟩
              exact ⟨taken, rest, ih.2 ⟨htext, hall⟩, ⟨rfl, rfl⟩, rfl⟩
      · next h =>
        cases taken with
        | nil => simp [hnil]
        | cons c taken =>
            simp only [List.mem_singleton, Prod.mk.injEq, reduceCtorEq, false_and, List.cons_append,
              List.cons.injEq, false_iff, not_and]
            rintro ⟨rfl, _⟩ hall
            exact h (hall d (List.mem_cons_self ..))

/-- The characters that have a meaning of their own in a written pattern. -/
def metacharacters : Text := "\\.+*?()|[]\x7b\x7d^$#&-~".toList

def escape (t : Text) : Text :=
  t.flatMap fun c => if c ∈ metacharacters then ['\\', c] else [c]

namespace Expr

/-- One of the given texts, tried in order; with none given, the empty text. -/
def oneOf : List Text → Expr
  | [] => text []
  | [t] => text t
  | t :: rest => alt (text t) (oneOf rest)

/-- Every way to read the expression from the front of a text: the text taken and the text left,
the preferred way first. -/
def runs : Expr → Text → List (Text × Text)
  | text t, input => (dropFront? t input).toList.map fun rest => (t, rest)
  | many cls, input => splits cls.accepts input
  | some cls, input => (splits cls.accepts input).filter (·.1 ≠ [])
  | seq first second, input =>
    (runs first input).flatMap fun a => (runs second a.2).map fun b => (a.1 ++ b.1, b.2)
  | alt first second, input => runs first input ++ runs second input
  | group inner, input => runs inner input

/-- The written form. Parentheses come from groups only, so that alternatives in a sequence have to
stand in a group. -/
def source : Expr → Text
  | text t => escape t
  | many cls => cls.source ++ ['*']
  | some cls => cls.source ++ ['+']
  | seq first second => source first ++ source second
  | alt first second => source first ++ '|' :: source second
  | group inner => "(?:".toList ++ source inner ++ [')']

/-- Reading takes the text apart and loses nothing of it. -/
theorem append_of_mem_runs {e : Expr} {input taken rest : Text}
    (h : (taken, rest) ∈ e.runs input) : input = taken ++ rest := by
  induction e generalizing input taken rest with
  | text t =>
      simp only [runs, List.mem_map, Option.mem_toList, dropFront?_eq_some_iff] at h
      obtain ⟨r, hr, heq⟩ := h
      simp only [Prod.mk.injEq] at heq
      rw [hr, heq.1, heq.2]
  | many cls => exact (mem_splits_iff.1 h).1
  | some cls => exact (mem_splits_iff.1 (List.mem_filter.1 h).1).1
  | seq first second ihFirst ihSecond =>
      simp only [runs, List.mem_flatMap, List.mem_map] at h
      obtain ⟨a, ha, b, hb, heq⟩ := h
      simp only [Prod.mk.injEq] at heq
      rw [ihFirst ha, ihSecond hb, ← heq.1, ← heq.2, List.append_assoc]
  | alt first second ihFirst ihSecond =>
      rcases List.mem_append.1 h with h | h
      · exact ihFirst h
      · exact ihSecond h
  | group inner ih => exact ih h

/-- Whether the expression describes some end of the text, wherever that end begins. -/
def matchesEnd (e : Expr) : Text → Bool
  | [] => (e.runs []).any (·.2 = [])
  | c :: t => (e.runs (c :: t)).any (·.2 = []) || matchesEnd e t

end Expr

end FileRouting
