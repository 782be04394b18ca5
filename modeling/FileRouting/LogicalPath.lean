import FileRouting.Text

/-!
# Logical paths

The logical path of a route follows from the directory of its file: `./(shop)//cart` becomes
`/cart`. A start of slashes and `./` is dropped, repeated slashes count once, and components in
parentheses are groups, which organize files and leave no trace in the path.
-/

namespace FileRouting

namespace LogicalPath

/-- Whether a component is a group: parentheses around text without any. -/
def isGroup : Text → Bool
  | '(' :: t => t.getLast? = some ')' && t.dropLast.all fun c => c ≠ '(' && c ≠ ')'
  | _ => false

/-- The text without its start of slashes and `./`, where a final `.` counts like `./`. -/
def dropStart : Text → Text
  | '.' :: '/' :: t => dropStart t
  | '/' :: t => dropStart t
  | ['.'] => []
  | t => t

/-- The components of a directory that are no groups. -/
def visible (directory : Text) : List Text :=
  (dropStart directory).components.filter fun part => !isGroup part

/-- The logical path of a directory: each component that is no group behind a slash, and a slash
alone when there is none. -/
def ofDirectory (directory : Text) : Text :=
  match visible directory with
  | [] => ['/']
  | parts => Text.slashed parts

end LogicalPath

end FileRouting
