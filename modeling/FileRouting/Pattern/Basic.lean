import FileRouting.Pattern.Expr

/-!
# Patterns with captures

A `Pattern` describes whole paths: a list of expressions read one after the other from the first
character to the last, some of which capture the text they take, and the names that the captures go
by.

`captureFrom` says what a pattern captures: it tries the readings of the first expression in order
of preference and takes the first one after which the rest of the path can be read too, so that
long runs and early alternatives from the left are preferred. `Pattern.source` is the written form,
anchored at both ends.

Before a pattern is used, its written form is handed to an `Engine`, which may refuse it.
-/

namespace FileRouting

/-- One expression of a pattern, whose text is captured or not. -/
inductive Item where
  | plain (e : Expr)
  | capture (e : Expr)
  deriving DecidableEq, Repr

/-- The written form of an item; a capture stands in parentheses. -/
def Item.source : Item → Text
  | plain e => e.source
  | capture e => '(' :: e.source ++ [')']

/-- The captures of the first way, in order of preference, to read all of a text as the items. -/
def captureFrom : List Item → Text → Option (List Text)
  | [], [] => some []
  | [], _ :: _ => none
  | .plain e :: items, input => (e.runs input).findSome? fun run => captureFrom items run.2
  | .capture e :: items, input =>
    (e.runs input).findSome? fun run => (captureFrom items run.2).map (run.1 :: ·)

/-- A description of whole paths, with a name for each capture. -/
structure Pattern where
  items : List Item
  names : List Text
  deriving DecidableEq, Repr

namespace Pattern

/-- The written form, which is compared and handed on. The items say what is read; for patterns of
routes the written form fixes them (`Route.items_eq_of_source_eq`). -/
def source (p : Pattern) : Text := '^' :: p.items.flatMap Item.source ++ ['$']

/-- Whether two patterns have the same written form and the same names. -/
def SameSource (p q : Pattern) : Prop := p.source = q.source ∧ p.names = q.names

instance (p q : Pattern) : Decidable (p.SameSource q) :=
  inferInstanceAs (Decidable (_ ∧ _))

end Pattern

/-- What written patterns are handed to before they are used. An engine tells why it refuses a
pattern, for instance because it would take more memory than the engine has; one that is taken
matches what its items say. -/
structure Engine where
  refusal? : Text → Option Text

namespace Engine

def Takes (engine : Engine) (written : Text) : Prop := engine.refusal? written = none

instance (engine : Engine) (written : Text) : Decidable (engine.Takes written) :=
  inferInstanceAs (Decidable (_ = _))

/-- The engine that takes every pattern. -/
def unlimited : Engine := ⟨fun _ => none⟩

end Engine

end FileRouting
