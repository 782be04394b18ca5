import FileRouting.Segment.Basic

/-!
# Specificity

The specificity of a route is the list of its segments' ranks. `Specificity.difference` compares
two such lists: the first position where they differ decides, and a list that ends first is the
less specific. Two routes conflict when they have as many segments and each pair of segments may
take the same text.
-/

namespace FileRouting

/-- The ranks of a route's segments, the most significant first. -/
abbrev Specificity := List Nat

namespace Specificity

def ofSegments (segments : List Segment) : Specificity := segments.map Segment.rank

/-- By how much the first list is more specific than the second: the difference of the ranks at the
first position where they differ, and one when a list is a continuation of the other. -/
def difference : Specificity → Specificity → Int
  | [], [] => 0
  | [], _ :: _ => -1
  | _ :: _, [] => 1
  | a :: as, b :: bs => if a = b then difference as bs else (a : Int) - b

def order (a b : Specificity) : Ordering := compare (difference a b) 0

def sort (lists : List Specificity) : List Specificity :=
  lists.mergeSort fun a b => (order a b).isLE

end Specificity

namespace Segment

/-- Whether two segments are alike enough to take the same text: equal literals, choices with a
common value, or parameters of one other kind. -/
def overlaps : Segment → Segment → Bool
  | literal a, literal b => a = b
  | choice _ as, choice _ bs => as.any fun value => bs.contains value
  | number _, number _ => true
  | wildcard _, wildcard _ => true
  | rest _, rest _ => true
  | _, _ => false

/-- Whether two routes conflict: they have as many segments, and those at the same position
overlap. -/
def conflict : List Segment → List Segment → Bool
  | [], [] => true
  | a :: as, b :: bs => a.overlaps b && conflict as bs
  | _, _ => false

end Segment

end FileRouting
