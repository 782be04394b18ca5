import FileRouting.Pattern.Basic
import FileRouting.Pattern.Chart

/-!
# Captures of a path

The captures of a path are found with charts, from the last item of a pattern to the first, so that
each item is read once from each end of the path. Trying the readings one after the other would
start over for every way to read what comes before.

* `foldr_before_tabulate` says what the chart in front of all items answers for each end;
* `captures?_eq` says that the captures found are those of `captureFrom`.
-/

namespace FileRouting

/-- A part of a text, given by what is left of the text from where the part starts and from where
it stops. -/
structure Span where
  start : Text
  stop : Text

def Span.text (s : Span) : Text := s.start.take (s.start.length - s.stop.length)

@[simp] theorem Span.text_mk_append (taken rest : Text) :
    Span.text ⟨taken ++ rest, rest⟩ = taken := by
  simp [Span.text]

/-- What is captured behind the last item: nothing, at the end of the path. -/
def finished : Text → Option (List Span)
  | [] => some []
  | _ :: _ => none

namespace Item

/-- The chart in front of an item, for the chart of what is captured behind it. -/
def before : Item → Chart (List Span) → Chart (List Span)
  | plain e, behind => e.before behind
  | capture e, behind =>
    (e.before (behind.mapWithEnd Prod.mk)).mapWithEnd fun u found => ⟨u, found.1⟩ :: found.2

/-- What is captured in front of an item, for what is captured behind it. -/
def capturedBefore : Item → (Text → Option (List Span)) → Text → Option (List Span)
  | plain e, behind, input => (e.runs input).findSome? fun run => behind run.2
  | capture e, behind, input =>
    (e.runs input).findSome? fun run => (behind run.2).map (⟨input, run.2⟩ :: ·)

theorem before_tabulate (item : Item) (behind : Text → Option (List Span)) (input : Text) :
    item.before (Chart.tabulate behind input) =
      Chart.tabulate (item.capturedBefore behind) input := by
  cases item with
  | plain e => exact e.before_tabulate behind input
  | capture e =>
      rw [before, Chart.mapWithEnd_tabulate, e.before_tabulate, Chart.mapWithEnd_tabulate]
      congr 1
      funext u
      simp [capturedBefore, List.map_findSome?, Function.comp_def]

end Item

theorem foldr_before_tabulate (items : List Item) (input : Text) :
    items.foldr Item.before (Chart.tabulate finished input) =
      Chart.tabulate (items.foldr Item.capturedBefore finished) input := by
  induction items with
  | nil => rfl
  | cons item items ih => rw [List.foldr_cons, ih, item.before_tabulate, List.foldr_cons]

theorem findSome?_congr {α β : Type} {f g : α → Option β} {xs : List α}
    (h : ∀ x ∈ xs, f x = g x) : xs.findSome? f = xs.findSome? g := by
  induction xs with
  | nil => rfl
  | cons x xs ih =>
      rw [List.findSome?_cons, List.findSome?_cons, h x (List.mem_cons_self ..),
        ih fun y hy => h y (List.mem_cons_of_mem x hy)]

/-- The texts of the spans found are the captures. -/
theorem map_text_foldr_capturedBefore (items : List Item) (input : Text) :
    (items.foldr Item.capturedBefore finished input).map (·.map Span.text) =
      captureFrom items input := by
  induction items generalizing input with
  | nil => cases input <;> rfl
  | cons item items ih =>
      cases item with
      | plain e =>
          rw [List.foldr_cons, Item.capturedBefore, captureFrom, List.map_findSome?]
          simp only [Function.comp_def, ih]
      | capture e =>
          rw [List.foldr_cons, Item.capturedBefore, captureFrom, List.map_findSome?]
          refine findSome?_congr fun run hrun => ?_
          rw [← ih, Expr.append_of_mem_runs hrun]
          simp [Function.comp_def]

namespace Pattern

/-- The texts captured from a path, or `none` when the path is not as described. -/
def captures? (p : Pattern) (path : Text) : Option (List Text) :=
  (Chart.first? (p.items.foldr Item.before (Chart.tabulate finished path))).map
    (·.map Span.text)

theorem captures?_eq (p : Pattern) (path : Text) :
    p.captures? path = captureFrom p.items path := by
  rw [captures?, foldr_before_tabulate, Chart.first?_tabulate, map_text_foldr_capturedBefore]

def accepts (p : Pattern) (path : Text) : Bool := (p.captures? path).isSome

end Pattern

end FileRouting
