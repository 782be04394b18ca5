import FileRouting.Disk.Lookup

/-!
# Editing file trees

The edits that are made to a file tree from outside: files, directories and symbolic links come
into being together with the directories they lie in, and entries are removed with all below them.
An edit that is not possible, for instance because a file stands in the way, changes nothing more.
-/

namespace FileRouting

namespace Disk

namespace Tree

/-- The tree in which the names lead from one directory to the next, with directories added where
there was nothing. -/
def addDirectoriesFrom : Tree → Location → List Bytes → Tree
  | t, _, [] => t
  | t, location, name :: names =>
    if name = here then addDirectoriesFrom t location names
    else if name = above then addDirectoriesFrom t location.tail names
    else
      match t.entry? (name :: location) with
      | none =>
        if IsName name then
          addDirectoriesFrom (t.insert location name .directory) (name :: location) names
        else t
      | some _ =>
        match t.follow true linkLimit location [name] with
        | .ok (.found next) => if t.isDirectoryAt next then addDirectoriesFrom t next names else t
        | _ => t

def addDirectory (t : Tree) (p : Path) : Tree :=
  if p.fault? = none then t.addDirectoriesFrom [] p.steps else t

/-- The tree with the directory that the path lies in. -/
def addParent (t : Tree) (p : Path) : Tree :=
  match p.parent? with
  | some parent => t.addDirectory parent
  | none => t

def addFile (t : Tree) (p : Path) : Tree :=
  match (t.addParent p).locate true p with
  | .ok (.free parent name) => (t.addParent p).insert parent name .file
  | _ => t.addParent p

def addLink (t : Tree) (p target : Path) : Tree :=
  match target.fault?, (t.addParent p).locate false p with
  | none, .ok (.free parent name) => (t.addParent p).insert parent name (.link target)
  | _, _ => t.addParent p

def removeAt (t : Tree) (p : Path) : Tree :=
  match t.locate false p with
  | .ok (.found location) => t.remove location
  | _ => t

end Tree

end Disk

end FileRouting
