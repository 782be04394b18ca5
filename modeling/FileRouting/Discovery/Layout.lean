import FileRouting.Discovery.Error
import FileRouting.Options.Basic

/-!
# Scanning upwards for layouts

Layouts of a route are looked for in the directory of its file, in the directory above, and so on.
An upward scan is bounded by a directory `stop` and ends when it leaves that directory's subtree:

* `Upward.nearest` gives the nearest accepted entry and looks into `stop` itself too;
* `Upward.all` gives all accepted entries, or the first of each directory, and leaves `stop` out.
-/

namespace FileRouting

namespace Upward

/-- Whether an upward scan with the given bound goes no further than a directory. -/
def isBoundary (stop directory : Disk.Path) : Bool :=
  directory.Same stop || ¬ directory.StartsWith stop

/-- The entries of a directory whose paths are accepted, in ascending order of their names. -/
def acceptedEntries (t : Disk.Tree) (accepts : Text → Bool) (directory : Disk.Path) :
    Except DiscoveryError (List Disk.Path) :=
  match t.list directory with
  | .ok names => .ok ((names.map directory.child).filter fun p => accepts p.display)
  | .error e => .error (.unreadable directory e)

/-- The first accepted entry of the nearest of the given directories that has one. -/
def nearestIn (t : Disk.Tree) (accepts : Text → Bool) (stop : Disk.Path) :
    List Disk.Path → Except DiscoveryError (Option Disk.Path)
  | [] => .ok none
  | directory :: above =>
    match acceptedEntries t accepts directory with
    | .error e => .error e
    | .ok (entry :: _) => .ok (some entry)
    | .ok [] => if isBoundary stop directory then .ok none else nearestIn t accepts stop above

/-- The nearest accepted entry on the way up from a path, the bound included. -/
def nearest (t : Disk.Tree) (accepts : Text → Bool) (source stop : Disk.Path) :
    Except DiscoveryError (Option Disk.Path) :=
  nearestIn t accepts stop source.ancestors

/-- The accepted entries of the given directories up to the bound. -/
def allIn (t : Disk.Tree) (accepts : Text → Bool) (stop : Disk.Path) (onePerLevel : Bool) :
    List Disk.Path → Except DiscoveryError (List Disk.Path)
  | [] => .ok []
  | directory :: above =>
    if isBoundary stop directory then .ok []
    else
      match acceptedEntries t accepts directory with
      | .error e => .error e
      | .ok entries =>
        (allIn t accepts stop onePerLevel above).map fun more =>
          (if onePerLevel then entries.take 1 else entries) ++ more

/-- The accepted entries on the way up from a path, the nearest first, the bound left out. -/
def all (t : Disk.Tree) (accepts : Text → Bool) (source stop : Disk.Path)
    (onePerLevel : Bool) : Except DiscoveryError (List Disk.Path) :=
  allIn t accepts stop onePerLevel source.ancestors

end Upward

end FileRouting
