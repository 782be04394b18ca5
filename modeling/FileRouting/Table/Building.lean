import FileRouting.Discovery.Layout
import FileRouting.Discovery.Scan
import FileRouting.Table.Basic

/-!
# Building tables

A table is built from a list of routes, ordered or refused as the tie break says, or from a
directory: each route file below it becomes a route, with its nearest layout if layouts are looked
for. A `Host` is what building relies on besides the file tree.
-/

namespace FileRouting

/-- The engine that patterns are handed to, and the directory that relative paths start from. -/
structure Host where
  engine : Engine
  current : Disk.WorkingDirectory

/-- A host whose engine takes every pattern, with the root directory as the working directory. -/
def Host.plain : Host := ⟨.unlimited, .root⟩

/-- Why no table is built. -/
inductive TableError where
  | ambiguous (first second : Route)
  | discovery (cause : DiscoveryError)
  | segment (cause : SegmentError)
  -- the engine refuses to tell layouts, which is no error to go on from but the end of the program
  | layoutMatcher (cause : Text)
  deriving DecidableEq, Repr

def TableError.message : TableError → Text
  | ambiguous first second =>
    "routes '".toList ++ first.canonical ++ "' (".toList ++ first.source.display ++
      ") and '".toList ++ second.canonical ++ "' (".toList ++ second.source.display ++
      ") match the same paths with equal specificity".toList
  | discovery cause => cause.message
  | segment cause => cause.message
  | layoutMatcher cause => "layout matcher should compile: ".toList ++ cause

namespace Route

/-- Whether two routes match the same paths with equal specificity. -/
def conflicts (a b : Route) : Bool :=
  a.specificity = b.specificity && Segment.conflict a.segments b.segments

/-- The first route in the list that conflicts with an earlier one, after the earliest such one;
the given routes count as earlier. -/
def firstConflict? (earlier : List Route) : List Route → Option (Route × Route)
  | [] => none
  | r :: routes =>
    match earlier.find? fun e => e.conflicts r with
    | some e => some (e, r)
    | none => firstConflict? (earlier ++ [r]) routes

def sort (routes : List Route) : List Route := routes.mergeSort fun a b => (a.order b).isLE

end Route

namespace TieBreak

def arrange (b : TieBreak) (routes : List Route) : Except TableError (List Route) :=
  match b with
  | canonicalPath => .ok (Route.sort routes)
  | enumeration => .ok routes
  | reject =>
    match Route.firstConflict? [] routes with
    | some (first, second) => .error (.ambiguous first second)
    | none => .ok (Route.sort routes)

end TieBreak

namespace Table

def ofRoutes (b : TieBreak) (routes : List Route) : Except TableError Table :=
  (b.arrange routes).map fun arranged => ⟨arranged, none⟩

/-- The route of a route file below a base directory. -/
def routeOf (engine : Engine) (t : Disk.Tree) (o : Options) (base : Disk.Path)
    (file : RouteFile) : Except TableError Route :=
  match Route.ofDirectory engine file.source file.directory with
  | .error e => .error (.segment e)
  | .ok r =>
    if o.discoverLayouts then
      match Upward.nearest t o.isLayoutPath file.source base with
      | .error e => .error (.discovery e)
      | .ok layout => .ok (r.setLayout layout)
    else .ok r

/-- Refuses options with which layouts are looked for that the engine refuses to tell. -/
def checkLayouts (engine : Engine) (o : Options) : Except Text Unit :=
  if o.discoverLayouts then (o.layoutMatcher engine).map fun _ => () else .ok ()

/-- The table of the route files below a base directory. -/
def ofDirectory (host : Host) (t : Disk.Tree) (o : Options) (base : Disk.Path) :
    Except TableError Table :=
  match base.absolute? host.current with
  | none => .error (.discovery .emptyPath)
  | some base =>
    match scan host.current t o base with
    | .error e => .error (.discovery e)
    | .ok files =>
      match checkLayouts host.engine o with
      | .error cause => .error (.layoutMatcher cause)
      | .ok () =>
        match files.mapM (routeOf host.engine t o base) with
        | .error e => .error e
        | .ok routes =>
          (ofRoutes o.tieBreak routes).map fun table => { table with base := some base }

/-- Whether a table is the result of building, with whichever options. -/
inductive Built : Table → Prop where
  | ofRoutes {b : TieBreak} {routes : List Route} {table : Table}
      (h : Table.ofRoutes b routes = .ok table) : Built table
  | ofDirectory {host : Host} {t : Disk.Tree} {o : Options} {base : Disk.Path} {table : Table}
      (h : Table.ofDirectory host t o base = .ok table) : Built table

end Table

end FileRouting
