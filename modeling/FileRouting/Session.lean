import FileRouting.Disk.Editing
import FileRouting.Router

/-!
# Sessions

A session is a router beside the host that it runs on and the file tree that it reads, together with
every table that was ever installed. Actions edit the tree, enter a directory, ask the router, or
look into the tree with the router's options; `Session.step` gives the answer to an action and the
session after it, and `Session.run` the answers to a list of actions.

A relative path starts from the directory that was entered last where tables are loaded and routes
are scanned for, and from the root directory where the tree is edited or layouts are searched for
upwards.
-/

namespace FileRouting

/-- What is done in a session. -/
inductive Action where
  | addFile (path : Disk.Path)
  | addDirectory (path : Disk.Path)
  | addLink (path target : Disk.Path)
  | remove (path : Disk.Path)
  | enter (current : Disk.WorkingDirectory)
  | load (base : Disk.Path)
  | reload
  | install (declarations : List Declaration)
  | installBuilt (table : Table) (built : table.Built)
  | installSnapshot (index : Nat)
  | find (request : Text)
  | resolve (path : Text)
  | resolveSnapshot (index : Nat) (path : Text)
  | table
  | get (canonical : Text)
  | options
  | scan (base : Disk.Path)
  | nearestLayout (source stop : Disk.Path)
  | allLayouts (source stop : Disk.Path) (onePerLevel : Bool)

inductive Answer where
  | edited
  | table (t : Table)
  | result (m : Option Match)
  | route (r : Option Route)
  | options (o : Options)
  | files (files : List RouteFile)
  | path (p : Option Disk.Path)
  | paths (paths : List Disk.Path)
  | failed (e : RouterError)
  | noSnapshot

/-- A host, a file tree, the router that reads it, and the tables that were installed. -/
structure Session where
  host : Host
  tree : Disk.Tree
  router : Router
  snapshots : List Table

namespace Session

/-- The answer with the given value, or the failure of a discovery. -/
def found {α : Type} (answer : α → Answer) : Except DiscoveryError α → Answer
  | .ok a => answer a
  | .error e => .failed (.table (.discovery e))

/-- The answer of a search for layouts, or the failure to tell them. -/
def foundLayouts {α : Type} (s : Session) (answer : α → Answer)
    (search : (Text → Bool) → Except DiscoveryError α) : Answer :=
  match s.router.options.layoutMatcher s.host.engine with
  | .ok accepts => found answer (search accepts)
  | .error cause => .failed (.table (.layoutMatcher cause))

/-- The answer with the given value, or the failure of the router. -/
def answered {α : Type} (answer : α → Answer) : Except RouterError α → Answer
  | .ok a => answer a
  | .error e => .failed e

/-- The answer and the session when a router has installed a table or failed to. -/
def installed (s : Session) : Except RouterError (Table × Router) → Answer × Session
  | .ok (table, router) =>
    (.table table, { s with router := router, snapshots := s.snapshots ++ [table] })
  | .error e => (.failed e, s)

/-- The table of the declared routes, and the router with it. -/
def installRoutes (r : Router) (engine : Engine) (declarations : List Declaration) :
    Except RouterError (Table × Router) :=
  match declarations.mapM (Declaration.route engine) with
  | .error e => .error (.table (.segment e))
  | .ok routes =>
    match Table.ofRoutes r.options.tieBreak routes with
    | .error e => .error (.table e)
    | .ok table => .ok (table, r.install table)

def edit (s : Session) (tree : Disk.Tree) : Answer × Session := (.edited, { s with tree := tree })

def step (s : Session) : Action → Answer × Session
  | .addFile path => s.edit (s.tree.addFile path)
  | .addDirectory path => s.edit (s.tree.addDirectory path)
  | .addLink path target => s.edit (s.tree.addLink path target)
  | .remove path => s.edit (s.tree.removeAt path)
  | .enter current => (.edited, { s with host := { s.host with current := current } })
  | .load base => s.installed (s.router.load s.host s.tree base)
  | .reload => s.installed (s.router.reload s.host s.tree)
  | .install declarations => s.installed (installRoutes s.router s.host.engine declarations)
  | .installBuilt table _ => s.installed (.ok (table, s.router.install table))
  | .installSnapshot index =>
    match s.snapshots[index]? with
    | some table => s.installed (.ok (table, s.router.install table))
    | none => (.noSnapshot, s)
  | .find request => (answered .result (s.router.find request), s)
  | .resolve path => (.result (s.router.resolve path), s)
  | .resolveSnapshot index path =>
    match s.snapshots[index]? with
    | some table => (.result (table.resolve path), s)
    | none => (.noSnapshot, s)
  | .table => (answered .table s.router.table, s)
  | .get canonical => (answered .route (s.router.get? canonical), s)
  | .options => (.options s.router.options, s)
  | .scan base => (found .files (scan s.host.current s.tree s.router.options base), s)
  | .nearestLayout source stop =>
    (s.foundLayouts .path fun accepts => Upward.nearest s.tree accepts source stop, s)
  | .allLayouts source stop onePerLevel =>
    (s.foundLayouts .paths fun accepts => Upward.all s.tree accepts source stop onePerLevel, s)

def run (s : Session) : List Action → List Answer × Session
  | [] => ([], s)
  | action :: actions =>
    let (answer, next) := s.step action
    let (answers, last) := run next actions
    (answer :: answers, last)

end Session

end FileRouting
