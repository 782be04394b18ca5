import FileRouting.Options.Extensions
import FileRouting.Pattern.Basic
import FileRouting.Request.Normalization

/-!
# Router options

The options of a router: how route files and layout files are named, what happens when routes
cannot be told apart, whether symbolic links are followed, and how requests are normalized.

Route files are recognised by name with `Options.declaresRoute`, layout files by path with
`Options.isLayoutPath`, which reads the expression `Options.layoutExpr` up to the end of the path.
`Options.layoutMatcher` is the way to the latter, for an engine that has to take the expression.
-/

namespace FileRouting

/-- What decides between routes of equal specificity. -/
inductive TieBreak where
  | canonicalPath
  | enumeration
  | reject
  deriving DecidableEq, Repr

structure Options where
  routeFileStem : Text := "index".toList
  extensions : Extensions := .all
  layoutFileStem : Text := "layout".toList
  discoverLayouts : Bool := true
  tieBreak : TieBreak := .canonicalPath
  followLinks : Bool := false
  normalization : Normalization := {}
  deriving DecidableEq, Repr

inductive StemField where
  | routeFileStem
  | layoutFileStem
  deriving DecidableEq, Repr

def StemField.name : StemField → Text
  | routeFileStem => "route_file_stem".toList
  | layoutFileStem => "layout_file_stem".toList

inductive OptionsError where
  | emptyStem (field : StemField)
  | invalidStem (field : StemField) (value : Text) (invalid : Char)
  | noExtensions
  deriving DecidableEq, Repr

def OptionsError.message : OptionsError → Text
  | emptyStem field => field.name ++ " must not be empty".toList
  | invalidStem field value invalid =>
    field.name ++ " '".toList ++ value ++ "' contains invalid character '".toList ++
      invalid :: "'".toList
  | noExtensions => "at least one route file extension must be enabled".toList

namespace Options

def isStemFault (c : Char) : Bool := c = '/' || c = '\\' || c = '.'

/-- Refuses a file name that is empty or has a slash, a backslash or a dot. -/
def checkStem (field : StemField) (value : Text) : Except OptionsError Unit :=
  if value = [] then .error (.emptyStem field)
  else
    match value.find? isStemFault with
    | some c => .error (.invalidStem field value c)
    | none => .ok ()

/-- Refuses options that no router can work with. The name of layout files counts only if layouts
are looked for. -/
def validate (o : Options) : Except OptionsError Unit :=
  match checkStem .routeFileStem o.routeFileStem with
  | .error e => .error e
  | .ok () =>
    if o.extensions.isEmpty then .error .noExtensions
    else if o.discoverLayouts then checkStem .layoutFileStem o.layoutFileStem
    else .ok ()

/-- Whether a file name is the given stem, a dot and one of the extensions. -/
def isFileOf (stem : Text) (extensions : Extensions) (file : Text) : Bool :=
  match (dropFront? stem file).bind (dropFront? ['.']) with
  | some extension => (Extension.ofName? extension).any extensions.contains
  | none => false

def declaresRoute (o : Options) (file : Text) : Bool := isFileOf o.routeFileStem o.extensions file

/-- The end of the paths that name layout files. -/
def layoutExpr (o : Options) : Expr :=
  .seq (.text ('/' :: o.layoutFileStem ++ ['.'])) (.group (.oneOf o.extensions.names))

def layoutSource (o : Options) : Text := o.layoutExpr.source ++ ['$']

def isLayoutPath (o : Options) (path : Text) : Bool := o.layoutExpr.matchesEnd path

/-- What tells the paths of layout files, or why the engine refuses to. -/
def layoutMatcher (engine : Engine) (o : Options) : Except Text (Text → Bool) :=
  match engine.refusal? o.layoutSource with
  | none => .ok o.isLayoutPath
  | some cause => .error cause

end Options

end FileRouting
