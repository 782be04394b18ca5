import FileRouting.Table.Building
import FileRouting.Table.Slot

/-!
# Routers

A router has valid options, a slot with the current table, and a flag that says whether a table was
ever installed.  Requests are looked up with `Router.find`, which normalizes them and needs the
flag, and paths that are normal already with `Router.resolve`, which takes the slot as it is. -/

namespace FileRouting

inductive RouterError where
  | notLoaded
  | noBase
  | options (cause : OptionsError)
  | request (cause : RequestError)
  | table (cause : TableError)
  deriving DecidableEq, Repr

def RouterError.message : RouterError → Text
  | notLoaded => "no route table loaded; call load() with a route directory first".toList
  | noBase =>
    "current route table was not scanned from a directory; nothing to reload".toList
  | options cause => cause.message
  | request cause => cause.message
  | table cause => cause.message

structure Router where
  options : Options
  valid : options.validate = .ok ()
  slot : Table.Slot := {}
  loaded : Bool := false

namespace Router

def make (o : Options) : Except RouterError Router :=
  match h : o.validate with
  | .ok () => .ok { options := o, valid := h }
  | .error e => .error (.options e)

def table (r : Router) : Except RouterError Table :=
  if r.loaded then .ok r.slot.current else .error .notLoaded

def install (r : Router) (table : Table) : Router :=
  { r with slot := (r.slot.replace table).2, loaded := true }

/-- The table of the route files below a directory, and the router with it. -/
def load (r : Router) (host : Host) (t : Disk.Tree) (base : Disk.Path) :
    Except RouterError (Table × Router) :=
  match Table.ofDirectory host t r.options base with
  | .ok table => .ok (table, r.install table)
  | .error e => .error (.table e)

/-- The table built anew from the directory of the current one, and the router with it. -/
def reload (r : Router) (host : Host) (t : Disk.Tree) : Except RouterError (Table × Router) :=
  match r.table with
  | .error e => .error e
  | .ok table =>
    match table.base with
    | none => .error .noBase
    | some base => r.load host t base

/-- The match for a path; before a table is installed there is none. -/
def resolve (r : Router) (path : Text) : Option Match := r.slot.current.resolve path

def find (r : Router) (request : Text) : Except RouterError (Option Match) :=
  match r.table with
  | .error e => .error e
  | .ok table =>
    match r.options.normalization.normalize request with
    | .error e => .error (.request e)
    | .ok path => .ok (table.resolve path)

def get? (r : Router) (canonical : Text) : Except RouterError (Option Route) :=
  r.table.map fun table => table.get? canonical

end Router

end FileRouting
