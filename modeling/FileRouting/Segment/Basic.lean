import FileRouting.Text

/-!
# Route segments

A route is a list of segments, one for each component of its logical path. A segment is fixed text
or a parameter of one of four kinds. The kinds are ranked by how specific they are, fixed text
first.
-/

namespace FileRouting

/-- One segment of a route: fixed text, or a parameter that takes one of the given values, a decimal
number, any one component, or any number of components. -/
inductive Segment where
  | literal (text : Text)
  | choice (name : Text) (values : List Text)
  | number (name : Text)
  | wildcard (name : Text)
  | rest (name : Text)
  deriving DecidableEq, Repr

namespace Segment

inductive Kind where
  | literal
  | choice
  | number
  | wildcard
  | rest
  deriving DecidableEq, Repr

/-- How specific a kind is: the greater, the more specific. -/
def Kind.rank : Kind → Nat
  | literal => 4
  | choice => 3
  | number => 2
  | wildcard => 1
  | rest => 0

def Kind.isNamed : Kind → Bool
  | literal => false
  | _ => true

def kind : Segment → Kind
  | literal _ => .literal
  | choice _ _ => .choice
  | number _ => .number
  | wildcard _ => .wildcard
  | rest _ => .rest

def rank (s : Segment) : Nat := s.kind.rank

def literalText? : Segment → Option Text
  | literal text => some text
  | _ => none

def name? : Segment → Option Text
  | literal _ => none
  | choice name _ => some name
  | number name => some name
  | wildcard name => some name
  | rest name => some name

def values? : Segment → Option (List Text)
  | choice _ values => some values
  | _ => none

theorem isSome_name? (s : Segment) : s.name?.isSome = s.kind.isNamed := by
  cases s <;> rfl

end Segment

end FileRouting
