import FileRouting.Disk.Lookup

/-!
# Walking a directory

A walk visits every entry below a directory and lists the files among them by their names from the
directory down, the last name first.

* Without following links, the files are those of the tree below the directory (`Tree.below`).
* Following links, a symbolic link counts as what it leads to, under its own name. A link that
  leads nowhere ends the walk, and so does a link to a directory that the walk is inside of.

Either way, a directory whose path is too long to be looked up ends the walk.

A walk that follows links goes down one directory at a time. It cannot enter the same directory
through links twice on one way down, so that `walkDepth` bounds how far down it goes.
-/

namespace FileRouting

namespace Disk

/-- Why a walk ends early. -/
inductive WalkError where
  -- a symbolic link leads nowhere, or a directory cannot be looked up by its path
  | unreachable (path : Path) (cause : LookupError)
  -- a symbolic link leads back to a directory that the walk is inside of
  | loop (child ancestor : Path)
  deriving DecidableEq, Repr

def WalkError.message : WalkError → Text
  | unreachable path cause =>
    "IO error for operation on ".toList ++ path.display ++ ": ".toList ++ cause.message
  | loop child ancestor =>
    "File system loop found: ".toList ++ child.display ++ " points to an ancestor ".toList ++
      ancestor.display

/-- The path of an entry below a directory, from its names with the last one first. -/
def Path.descend (p : Path) : List Bytes → Path
  | [] => p
  | name :: names => (p.descend names).child name

namespace Tree

/-- The names between a location and a location below it, the last name first. -/
def namesBelow? (top location : Location) : Option (List Bytes) :=
  (dropFront? top.reverse location.reverse).map List.reverse

/-- The locations below a directory where the tree has the given entry, by their names from there
with the last one first. -/
def below (t : Tree) (e : Entry) (top : Location) : List (List Bytes) :=
  t.entries.filterMap fun x => if x.2 = e then namesBelow? top x.1 else none

/-- How far down a walk that follows links can go. -/
def walkDepth (t : Tree) : Nat := (t.entries.length + 1) * (t.entries.length + 1)

/-- The files below a directory, symbolic links followed. `inside` are the directories that the
walk is inside of, the nearest first, each with its names below the start of the walk. -/
def walkLinks (t : Tree) (start : Path) :
    Nat → List (List Bytes × Location) → Except WalkError (List (List Bytes))
  | 0, _ => .ok []
  | _, [] => .ok []
  | depth + 1, (names, location) :: outer =>
    let inside := (names, location) :: outer
    (t.children location).flatMapM fun name =>
      let path := start.descend (name :: names)
      let enter (next : Location) := walkLinks t start depth ((name :: names, next) :: inside)
      match t.entry? (name :: location) with
      | none => .ok []
      | some .file => .ok [name :: names]
      | some .directory =>
        match path.fault? with
        | some e => .error (.unreachable path e)
        | none => enter (name :: location)
      | some (.link _) =>
        match t.find path with
        | .error e => .error (.unreachable path e)
        | .ok next =>
          if t.isDirectoryAt next then
            match inside.find? (·.2 = next) with
            | some ancestor => .error (.loop path (start.descend ancestor.1))
            | none => enter next
          else .ok [name :: names]

/-- The files below a directory, symbolic links left out. A directory stands behind all below it in
the entries of a tree, so that of several directories with a fault the outermost is the last. -/
def walkPlain (t : Tree) (start : Path) (top : Location) : Except WalkError (List (List Bytes)) :=
  match (t.below .directory top).reverse.findSome? fun names =>
      (start.descend names).fault?.map (WalkError.unreachable (start.descend names)) with
  | some e => .error e
  | none => .ok (t.below .file top)

/-- The files below the directory at a location, to which the path leads, by their names from there
with the last one first. -/
def walk (t : Tree) (followLinks : Bool) (start : Path) (top : Location) :
    Except WalkError (List (List Bytes)) :=
  if followLinks then t.walkLinks start t.walkDepth [([], top)] else t.walkPlain start top

end Tree

end Disk

end FileRouting
