import FileRouting.Segment.Reading
import FileRouting.Pattern.Basic

/-!
# Patterns of routes

The pattern of a route takes a slash and then the text of a segment, segment after segment. Each
parameter captures its text, so that the captures of a pattern go with the names of its parameters
one by one.

* `Segment.expr` is the expression of a segment, and `Segment.fragment` its written form;
* `Pattern.ofSegments` puts the pattern of a route together;
* `Pattern.compile` does so unless a parameter name is repeated or the engine refuses the written
  form.
-/

namespace FileRouting

namespace Segment

/-- Decimal numbers: digits with a point between, behind or before them, or digits alone. -/
def decimal : Expr :=
  .alt (.seq (.some .digit) (.seq (.text ['.']) (.some .digit)))
    (.alt (.seq (.some .digit) (.text ['.']))
      (.alt (.seq (.text ['.']) (.some .digit)) (.some .digit)))

def expr : Segment → Expr
  | literal text => .text text
  | choice _ values => .group (.oneOf values)
  | number _ => decimal
  | wildcard _ => .many .notSlash
  | rest _ => .many .notNewline

/-- A segment as a part of a pattern: parameters are captured. -/
def item : Segment → Item
  | literal text => .plain (.text text)
  | s => .capture s.expr

def fragment (s : Segment) : Text := s.item.source

end Segment

namespace Pattern

/-- The items of a route's pattern: a slash before each segment, or a slash alone for none. -/
def itemsOf : List Segment → List Item
  | [] => [.plain (.text ['/'])]
  | segments => segments.flatMap fun s => [.plain (.text ['/']), s.item]

def ofSegments (segments : List Segment) : Pattern := ⟨itemsOf segments, Segment.names segments⟩

/-- The pattern of a list of segments, unless a parameter name is repeated or the engine refuses
it. -/
def compile (engine : Engine) (segments : List Segment) (route : Text) :
    Except SegmentError Pattern :=
  match Segment.distinct route segments with
  | .error e => .error e
  | .ok segments =>
    match engine.refusal? (ofSegments segments).source with
    | none => .ok (ofSegments segments)
    | some cause => .error (.refusedPattern route cause)

end Pattern

end FileRouting
