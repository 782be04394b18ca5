import FileRouting.Route

/-!
# Resolution and tables

A path resolves to the most specific of the routes that match it; among equally specific ones, the
first in the list. `Match.step` is one step of the search, which keeps the best match so far. A
`Table` is an ordered list of routes, together with the directory that it was built from, if any.
-/

namespace FileRouting

/-- A route that matches a path, with the texts that its parameters take. -/
structure Match where
  route : Route
  captures : List Text
  deriving DecidableEq, Repr

namespace Match

/-- The texts taken, by the names of the parameters. -/
def params (m : Match) : List (Text × Text) := m.route.pattern.names.zip m.captures

/-- The better of the best match so far and the match of one more route, which must be more
specific to take its place. -/
def step (path : Text) (best : Option Match) (r : Route) : Option Match :=
  match r.captures? path, best with
  | none, _ => best
  | some captures, none => some ⟨r, captures⟩
  | some captures, some m =>
    if 0 < Specificity.difference r.specificity m.route.specificity then some ⟨r, captures⟩
    else some m

end Match

/-- The match of the most specific route for a path, the first of equally specific ones. -/
def resolve (routes : List Route) (path : Text) : Option Match :=
  routes.foldl (Match.step path) none

structure Table where
  routes : List Route
  base : Option Disk.Path
  deriving DecidableEq, Repr

namespace Table

def empty : Table := ⟨[], none⟩

def get? (t : Table) (canonical : Text) : Option Route :=
  t.routes.find? fun r => r.canonical = canonical

def resolve (t : Table) (path : Text) : Option Match := FileRouting.resolve t.routes path

end Table

end FileRouting
