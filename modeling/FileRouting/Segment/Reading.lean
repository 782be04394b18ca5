import FileRouting.Segment.Basic

/-!
# Reading segments

A component of a logical path reads as a segment: text in brackets declares a parameter, everything
else is literal.

    [name]  [name:*]     any one component
    [name:**]            any number of components
    [name:number]        a decimal number
    [name:|a|b|c]        one of the values a, b and c

A name consists of ASCII letters, digits, underscores and dollar signs; three dots before it are
allowed and mean nothing. `Segment.read?` is `none` exactly when the component starts and ends like
a parameter without being one, and `Segment.ofLogicalPath` reads all components of a path, refusing
a path that gives one name to two parameters.
-/

namespace FileRouting

/-- Why there is no route with a logical path. -/
inductive SegmentError where
  | invalidParameter (segment route : Text)
  | repeatedName (name route : Text)
  -- the engine refuses the pattern of the route
  | refusedPattern (route cause : Text)
  deriving DecidableEq, Repr

def SegmentError.message : SegmentError → Text
  | invalidParameter segment route =>
    "invalid route parameter '".toList ++ segment ++ "' in route '".toList ++ route ++ "'".toList
  | repeatedName name route =>
    "duplicate parameter name '".toList ++ name ++ "' in route '".toList ++ route ++ "'".toList
  | refusedPattern route cause =>
    "route '".toList ++ route ++ "' compiled to an invalid pattern: ".toList ++ cause

namespace Segment

/-- What stands between an opening bracket at the front and a closing bracket at the end. -/
def bracketed? : Text → Option Text
  | '[' :: t => if t.getLast? = some ']' then some t.dropLast else none
  | _ => none

def isNameChar (c : Char) : Bool := c.isAlphanum || c = '_' || c = '$'

/-- The dots that may stand before a name. -/
def dots : Text := ['.', '.', '.']

/-- The name that a parameter is declared with, after the optional dots. -/
def readName? (t : Text) : Option Text :=
  let name := (dropFront? dots t).getD t
  if name ≠ [] ∧ name.all isNameChar then some name else none

/-- Whether a text may be a value of a choice. -/
def isValue (t : Text) : Bool := t ≠ [] && t.all fun c => !(['/', ':', '[', ']', '\\'].contains c)

/-- The values of a choice, as they stand between bars. -/
def readValues? (t : Text) : Option (List Text) :=
  let values := t.splitOn '|'
  if values.all isValue then some values else none

/-- The parameter of the given name that the text behind the colon declares. -/
def readParameter? (name : Text) : Option Text → Option Segment
  | none => some (.wildcard name)
  | some ('|' :: values) => (readValues? values).map (.choice name)
  | some modifier =>
    if modifier = ['*'] then some (.wildcard name)
    else if modifier = ['*', '*'] then some (.rest name)
    else if modifier = "number".toList then some (.number name)
    else none

/-- The segment that a component declares. -/
def read? (raw : Text) : Option Segment :=
  if raw = ['['] then none
  else
    match bracketed? raw with
    | none => some (.literal raw)
    | some body =>
      (readName? (body.cut ':').1).bind fun name => readParameter? name (body.cut ':').2

/-- The segment that a component of the given route declares. -/
def read (route raw : Text) : Except SegmentError Segment :=
  match read? raw with
  | some s => .ok s
  | none => .error (.invalidParameter raw route)

def names (segments : List Segment) : List Text := segments.filterMap name?

/-- The leftmost name that is among those before it, the given ones included. -/
def firstRepeated? (before : List Text) : List Text → Option Text
  | [] => none
  | name :: names => if name ∈ before then some name else firstRepeated? (name :: before) names

/-- The segments themselves, unless a name is repeated. -/
def distinct (route : Text) (segments : List Segment) : Except SegmentError (List Segment) :=
  match firstRepeated? [] (names segments) with
  | none => .ok segments
  | some name => .error (.repeatedName name route)

/-- The segments of a route, whose root has a single empty literal. -/
def orRoot : List Segment → List Segment
  | [] => [.literal []]
  | segments => segments

def ofLogicalPath (path : Text) : Except SegmentError (List Segment) :=
  match path.components.mapM (read path) with
  | .ok segments => distinct path (orRoot segments)
  | .error e => .error e

end Segment

end FileRouting
