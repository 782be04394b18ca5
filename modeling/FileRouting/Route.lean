import FileRouting.Disk.Path
import FileRouting.LogicalPath
import FileRouting.Pattern.Captures
import FileRouting.Segment.Matching
import FileRouting.Specificity

/-!
# Routes

A route is a logical path with the file that declares it. The path determines the segments, and
these the pattern and the specificity, so that routes with the same path match the same requests.
Routes are made by `Route.ofLogicalPath` and, from the directory of the file, by
`Route.ofDirectory`, both for an engine that has to take the pattern.
-/

namespace FileRouting

structure Route where
  source : Disk.Path
  canonical : Text
  segments : List Segment
  layout : Option Disk.Path
  segments_eq : Segment.ofLogicalPath canonical = .ok segments
  deriving DecidableEq, Repr

namespace Route

def ofLogicalPath (engine : Engine) (source : Disk.Path) (canonical : Text) :
    Except SegmentError Route :=
  match h : Segment.ofLogicalPath canonical with
  | .ok segments =>
    (Pattern.compile engine segments canonical).map fun _ => ⟨source, canonical, segments, none, h⟩
  | .error e => .error e

def ofDirectory (engine : Engine) (source : Disk.Path) (directory : Text) :
    Except SegmentError Route :=
  ofLogicalPath engine source (LogicalPath.ofDirectory directory)

def setLayout (r : Route) (layout : Option Disk.Path) : Route := { r with layout := layout }

def pattern (r : Route) : Pattern := .ofSegments r.segments

def specificity (r : Route) : Specificity := .ofSegments r.segments

/-- The texts that a route's parameters take from a path, or `none` when the route does not match
it. -/
def captures? (r : Route) (path : Text) : Option (List Text) := r.pattern.captures? path

def accepts (r : Route) (path : Text) : Bool := (r.captures? path).isSome

/-- The directory below `out` that a static build writes a route to. -/
def outputDirectory (r : Route) (out : Disk.Path) : Disk.Path :=
  r.canonical.components.foldl (fun directory part => directory.join (.ofText part)) out

/-- Whether two routes agree in their paths, and in their locations by components. -/
def Same (a b : Route) : Prop :=
  a.source.Same b.source ∧ a.canonical = b.canonical ∧ a.segments = b.segments ∧
    a.layout.map Disk.Path.components = b.layout.map Disk.Path.components

instance (a b : Route) : Decidable (a.Same b) :=
  inferInstanceAs (Decidable (_ ∧ _))

/-- The order of routes in a table: by logical path, then by location. -/
def order (a b : Route) : Ordering :=
  (compare a.canonical b.canonical).then (a.source.order b.source)

end Route

/-- How the logical path of a route is given: by a directory, whose groups do not count, or as it
is. -/
inductive Place where
  | directory (path : Text)
  | logical (path : Text)
  deriving DecidableEq, Repr

/-- What a route is made from. -/
structure Declaration where
  source : Disk.Path
  place : Place
  layout : Option Disk.Path
  deriving DecidableEq, Repr

def Place.route (engine : Engine) (source : Disk.Path) : Place → Except SegmentError Route
  | directory path => Route.ofDirectory engine source path
  | logical path => Route.ofLogicalPath engine source path

def Declaration.route (engine : Engine) (d : Declaration) : Except SegmentError Route :=
  (d.place.route engine d.source).map fun r : Route => r.setLayout d.layout

end FileRouting
