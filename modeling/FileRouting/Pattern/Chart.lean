import FileRouting.Pattern.Expr

/-!
# Charts of a text

A chart holds an answer for each end of a text: for the text itself, for the text without its first
character, and so on down to the empty text. `Expr.before` turns a chart that says what to answer
behind an expression into the chart that says what to answer in front of it, in one pass over the
ends for each part of the expression, however many ways there are to read it.

* `answerAfter_tabulate` says that a fixed text leads to the answer of what it leaves;
* `before_tabulate` says that the answer in front of an expression is the first one that a way to
  read the expression leads to, in the order of `Expr.runs`.
-/

namespace FileRouting

/-- An answer, if there is one, for each end of a text, the longest end first. -/
abbrev Chart (α : Type) := List (Text × Option α)

namespace Chart

variable {α : Type}

/-- The chart of a text in which each end has the answer of a function. -/
def tabulate (f : Text → Option α) : Text → Chart α
  | [] => [([], f [])]
  | c :: t => (c :: t, f (c :: t)) :: tabulate f t

def first? (chart : Chart α) : Option α := chart.head?.bind Prod.snd

def answerAfter : Text → Chart α → Option α
  | [], chart => first? chart
  | c :: t, (d :: _, _) :: chart => if c = d then answerAfter t chart else none
  | _ :: _, _ => none

def beforeText (t : Text) : Chart α → Chart α
  | [] => []
  | (u, answer) :: chart => (u, answerAfter t ((u, answer) :: chart)) :: beforeText t chart

/-- The chart in front of one character of a class. -/
def beforeOne (cls : CharClass) : Chart α → Chart α
  | [] => []
  | (u, _) :: chart =>
    (u, if u.head?.any cls.accepts then first? chart else none) :: beforeOne cls chart

/-- The chart in front of any number of characters of a class, of which as many as possible are
taken. -/
def beforeMany (cls : CharClass) : Chart α → Chart α
  | [] => []
  | (u, answer) :: chart =>
    let later := beforeMany cls chart
    (u, if u.head?.any cls.accepts then (first? later).or answer else answer) :: later

/-- The chart that answers by one chart, or else by another one of the same text. -/
def orElse (preferred other : Chart α) : Chart α :=
  List.zipWith (fun x y => (x.1, x.2.or y.2)) preferred other

/-- The chart with every answer made into another one, for which its end may be used. -/
def mapWithEnd {β : Type} (g : Text → α → β) (chart : Chart α) : Chart β :=
  chart.map fun x => (x.1, x.2.map (g x.1))

@[simp] theorem first?_tabulate (f : Text → Option α) (t : Text) :
    first? (tabulate f t) = f t := by
  cases t <;> rfl

theorem answerAfter_tabulate (f : Text → Option α) (t input : Text) :
    answerAfter t (tabulate f input) = (dropFront? t input).bind f := by
  induction t generalizing input with
  | nil => simp [answerAfter, dropFront?]
  | cons c t ih =>
      cases input with
      | nil => rfl
      | cons d input =>
          simp only [tabulate, answerAfter, dropFront?]
          split
          · exact ih input
          · rfl

theorem beforeText_tabulate (f : Text → Option α) (t input : Text) :
    beforeText t (tabulate f input) = tabulate (fun u => (dropFront? t u).bind f) input := by
  induction input with
  | nil => simp only [tabulate, beforeText, ← answerAfter_tabulate]
  | cons d input ih => simp only [tabulate, beforeText, ← answerAfter_tabulate, ih]

theorem beforeOne_tabulate (cls : CharClass) (f : Text → Option α) (input : Text) :
    beforeOne cls (tabulate f input) =
      tabulate (fun u => if u.head?.any cls.accepts then f u.tail else none) input := by
  induction input with
  | nil => rfl
  | cons d input ih => simp only [tabulate, beforeOne, ih, first?_tabulate, List.tail_cons]

theorem beforeMany_tabulate (cls : CharClass) (f : Text → Option α) (input : Text) :
    beforeMany cls (tabulate f input) =
      tabulate (fun u => (splits cls.accepts u).findSome? fun run => f run.2) input := by
  induction input with
  | nil => simp [tabulate, beforeMany, splits]
  | cons d input ih =>
      simp only [tabulate, beforeMany, ih, first?_tabulate, List.head?_cons, Option.any_some]
      congr 2
      rw [splits]
      split
      · simp [List.findSome?_append, List.findSome?_map, Function.comp_def]
      · simp

theorem orElse_tabulate (f g : Text → Option α) (input : Text) :
    orElse (tabulate f input) (tabulate g input) = tabulate (fun u => (f u).or (g u)) input := by
  induction input with
  | nil => rfl
  | cons d input ih =>
      simp only [orElse] at ih
      simp only [tabulate, orElse, List.zipWith_cons_cons, ih]

theorem mapWithEnd_tabulate {β : Type} (g : Text → α → β) (f : Text → Option α) (input : Text) :
    mapWithEnd g (tabulate f input) = tabulate (fun u => (f u).map (g u)) input := by
  induction input with
  | nil => rfl
  | cons d input ih =>
      simp only [mapWithEnd] at ih
      simp only [tabulate, mapWithEnd, List.map_cons, ih]

end Chart

/-- The chart in front of an expression, for the chart that says what to answer behind it. -/
def Expr.before {α : Type} : Expr → Chart α → Chart α
  | text t, chart => chart.beforeText t
  | many cls, chart => chart.beforeMany cls
  | some cls, chart => (chart.beforeMany cls).beforeOne cls
  | seq first second, chart => first.before (second.before chart)
  | alt first second, chart => (first.before chart).orElse (second.before chart)
  | group inner, chart => inner.before chart

theorem findSome?_flatMap {α β γ : Type} (xs : List α) (f : α → List β) (g : β → Option γ) :
    (xs.flatMap f).findSome? g = xs.findSome? fun x => (f x).findSome? g := by
  induction xs with
  | nil => rfl
  | cons x xs ih =>
      rw [List.flatMap_cons, List.findSome?_append, List.findSome?_cons, ih]
      cases (f x).findSome? g <;> rfl

theorem findSome?_splits_ne_nil {α : Type} (accepts : Char → Bool) (f : Text → Option α)
    (t : Text) :
    ((splits accepts t).filter (·.1 ≠ [])).findSome? (fun run => f run.2) =
      if t.head?.any accepts then (splits accepts t.tail).findSome? (fun run => f run.2)
      else none := by
  cases t with
  | nil => simp [splits]
  | cons c t =>
      by_cases h : accepts c
      · have hall : ∀ ts : List (Text × Text), ts.filter (fun _ => true) = ts := by simp
        simp [splits, h, List.filter_map, List.findSome?_map, Function.comp_def, hall]
      · simp [splits, h]

/-- In front of an expression stands the first answer that a way to read the expression leads to.
-/
theorem Expr.before_tabulate {α : Type} (e : Expr) (f : Text → Option α) (input : Text) :
    e.before (Chart.tabulate f input) =
      Chart.tabulate (fun u => (e.runs u).findSome? fun run => f run.2) input := by
  induction e generalizing f with
  | text t =>
      rw [before, Chart.beforeText_tabulate]
      congr 1
      funext u
      cases h : dropFront? t u <;> simp [runs, h]
  | many cls => exact Chart.beforeMany_tabulate cls f input
  | some cls =>
      rw [before, Chart.beforeMany_tabulate, Chart.beforeOne_tabulate]
      congr 1
      funext u
      rw [runs, findSome?_splits_ne_nil]
  | seq first second ihFirst ihSecond =>
      rw [before, ihSecond, ihFirst]
      congr 1
      funext u
      simp only [runs, findSome?_flatMap, List.findSome?_map, Function.comp_def]
  | alt first second ihFirst ihSecond =>
      rw [before, ihFirst, ihSecond, Chart.orElse_tabulate]
      congr 1
      funext u
      rw [runs, List.findSome?_append]
  | group inner ih => exact ih f

end FileRouting
