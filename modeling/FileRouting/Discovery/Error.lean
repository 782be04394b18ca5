import FileRouting.Disk.Walk

/-!
# Errors of discovery

What can go wrong when routes and layouts are looked for in a file tree.
-/

namespace FileRouting

/-- Why files could not be looked for. -/
inductive DiscoveryError where
  | emptyPath
  | baseNotFound (path : Disk.Path)
  | walk (cause : Disk.WalkError)
  | unreadable (path : Disk.Path) (cause : Disk.LookupError)
  deriving DecidableEq, Repr

def DiscoveryError.message : DiscoveryError → Text
  | emptyPath => "failed to read '': cannot make an empty path absolute".toList
  | baseNotFound path =>
    "route directory '".toList ++ path.display ++ "' does not exist or is not a directory".toList
  | walk cause => "failed to walk route directory: ".toList ++ cause.message
  | unreadable path cause =>
    "failed to read '".toList ++ path.display ++ "': ".toList ++ cause.message

end FileRouting
