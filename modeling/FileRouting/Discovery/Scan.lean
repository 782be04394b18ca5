import FileRouting.Discovery.Error
import FileRouting.Options.Basic

/-!
# Scanning for route files

A scan walks the tree below a base directory and keeps the files whose names declare routes. A name
that is not UTF-8 declares none.
-/

namespace FileRouting

structure RouteFile where
  source : Disk.Path
  -- the directory of the file below the base, with slashes between the names
  directory : Text
  deriving DecidableEq, Repr

namespace RouteFile

/-- The directories with the given names, the last name first, as text with slashes between. -/
def directoryText (names : List Bytes) : Text :=
  List.intercalate ['/'] (names.reverse.map Utf8.decodeLossy)

/-- The route file with the given names below a base, the last name first, if it is one. -/
def ofNames? (o : Options) (base : Disk.Path) : List Bytes → Option RouteFile
  | [] => none
  | name :: directories =>
    match Utf8.decode? name with
    | some file =>
      if o.declaresRoute file then
        some ⟨base.descend (name :: directories), directoryText directories⟩
      else none
    | none => none

end RouteFile

/-- The route files below a base directory. -/
def scan (current : Disk.WorkingDirectory) (t : Disk.Tree) (o : Options) (base : Disk.Path) :
    Except DiscoveryError (List RouteFile) :=
  match base.absolute? current with
  | none => .error .emptyPath
  | some base =>
    match t.findDirectory base with
    | .error _ => .error (.baseNotFound base)
    | .ok top =>
      match t.walk o.followLinks base top with
      | .error e => .error (.walk e)
      | .ok files => .ok (files.filterMap (RouteFile.ofNames? o base))

end FileRouting
