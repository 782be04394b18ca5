import FileRouting.Disk.Tree

/-!
# Following paths

A path is followed name by name from the root directory. Each step needs a directory; a symbolic
link met on the way is replaced by its target, at most `linkLimit` times on one path. `Tree.locate`
gives the location that a path leads to, or the directory and the free name where its last entry
would be. `Path.fault?` says which paths are refused before any name of them is looked up.

A tree has no working directory: a relative path is followed from the root directory too, and where
another one is meant, the path is made absolute first (`Path.absolute?`).
-/

namespace FileRouting

namespace Disk

/-- Why a path leads nowhere. -/
inductive LookupError where
  | noEntry
  | notDirectory
  | tooManyLinks
  | nameTooLong
  | nulByte
  deriving DecidableEq, Repr

/-- The words of an error, with its number if it has one. -/
def LookupError.message : LookupError → Text
  | noEntry => "No such file or directory (os error 2)".toList
  | notDirectory => "Not a directory (os error 20)".toList
  | tooManyLinks => "Too many levels of symbolic links (os error 40)".toList
  | nameTooLong => "File name too long (os error 36)".toList
  | nulByte => "file name contained an unexpected NUL byte".toList

/-- Why a path leads nowhere in any tree. -/
def Path.fault? (p : Path) : Option LookupError :=
  if 0 ∈ p.bytes then some .nulByte
  else if pathLimit < p.bytes.length then some .nameTooLong
  else if p.bytes = [] then some .noEntry
  else none

/-- Where a path leads: to an entry, or to a free name of a directory. -/
inductive Target where
  | found (location : Location)
  | free (parent : Location) (name : Bytes)
  deriving DecidableEq, Repr

namespace Tree

/-- How many symbolic links one path may lead through. -/
def linkLimit : Nat := 40

/-- Follows names from a location. At a symbolic link, `onLink` goes on from the directory of the
link with the link's target and the names left; a link at the end counts as the end unless it is to
be followed. -/
def followNames (t : Tree) (followLast : Bool)
    (onLink : Location → Path → List Bytes → Except LookupError Target) :
    Location → List Bytes → Except LookupError Target
  | location, [] => .ok (.found location)
  | location, name :: names =>
    if !t.isDirectoryAt location then .error .notDirectory
    else if name = here then followNames t followLast onLink location names
    else if name = above then followNames t followLast onLink location.tail names
    else
      match t.entry? (name :: location) with
      | none =>
        if nameLimit < name.length then .error .nameTooLong
        else if names = [] then .ok (.free location name)
        else .error .noEntry
      | some (.link target) =>
        if names = [] && !followLast then .ok (.found (name :: location))
        else onLink location target names
      | some _ => followNames t followLast onLink (name :: location) names

/-- Follows names from a location through at most the given number of symbolic links. -/
def follow (t : Tree) (followLast : Bool) :
    Nat → Location → List Bytes → Except LookupError Target
  | 0 => followNames t followLast fun _ _ _ => .error .tooManyLinks
  | limit + 1 =>
    followNames t followLast fun location target names =>
      follow t followLast limit (if target.isAbsolute then [] else location) (target.steps ++ names)

/-- Where a path leads; a symbolic link at its end is followed if that is wanted. -/
def locate (t : Tree) (followLast : Bool) (p : Path) : Except LookupError Target :=
  match p.fault? with
  | some e => .error e
  | none => follow t followLast linkLimit [] p.steps

def find (t : Tree) (p : Path) : Except LookupError Location :=
  match t.locate true p with
  | .ok (.found location) => .ok location
  | .ok (.free _ _) => .error .noEntry
  | .error e => .error e

def findDirectory (t : Tree) (p : Path) : Except LookupError Location :=
  match t.find p with
  | .ok location => if t.isDirectoryAt location then .ok location else .error .notDirectory
  | .error e => .error e

/-- The names of the entries of the directory that a path leads to, in ascending order. -/
def list (t : Tree) (p : Path) : Except LookupError (List Bytes) :=
  (t.findDirectory p).map fun location =>
    (t.children location).mergeSort fun a b => (compare a b).isLE

end Tree

end Disk

end FileRouting
