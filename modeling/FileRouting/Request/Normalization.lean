import FileRouting.Request.Percent

/-!
# Normalization of requests

A raw request target becomes the absolute path that routes are matched against. In this order, the
query and fragment are cut off, escapes are decoded, control and blank bytes are refused, the bytes
are read as UTF-8, a leading slash is supplied, repeated slashes are squeezed into one, and a path
with a component `..` is refused. A trailing slash survives.
-/

namespace FileRouting

/-- How requests are normalized. -/
structure Normalization where
  decodePercent : Bool := false
  stripQuery : Bool := true
  allowDuplicateSlash : Bool := false
  deriving DecidableEq, Repr

inductive RequestError where
  | empty
  | forbiddenByte (input : Text) (byte : UInt8)
  | parentTraversal (input normalized : Text)
  -- the percent sign at this byte index begins no escape
  | badEscape (input : Text) (index : Nat)
  | notUtf8 (input : Text)
  deriving DecidableEq, Repr

def RequestError.message : RequestError → Text
  | empty => "path is empty".toList
  | forbiddenByte input byte =>
    "path contains control or whitespace byte ".toList ++ Nat.toDigits 10 byte.toNat ++
      " in '".toList ++ input ++ "'".toList
  | parentTraversal input normalized =>
    "path '".toList ++ input ++ "' normalizes to invalid parent traversal '".toList ++ normalized ++
      "'".toList
  | badEscape input index =>
    "path '".toList ++ input ++ "' has invalid percent-encoding at byte ".toList ++
      Nat.toDigits 10 index
  | notUtf8 input =>
    "path '".toList ++ input ++ "' is not valid UTF-8 after percent-decoding".toList

namespace Normalization

/-- The part of a request before its query and fragment. -/
def beforeQuery (request : Text) : Text := request.takeWhile fun c => c ≠ '?' && c ≠ '#'

def target (n : Normalization) (request : Text) : Text :=
  if n.stripQuery then beforeQuery request else request

def bytes (n : Normalization) (target : Text) : Except Nat Bytes :=
  if n.decodePercent then Percent.decode (Utf8.encode target) else .ok (Utf8.encode target)

/-- Whether a byte is a control character or a blank. -/
def isForbidden (b : UInt8) : Bool := b ≤ 0x20 || b = 0x7F

/-- The text with a slash before it, unless it starts with one. -/
def rooted : Text → Text
  | '/' :: t => '/' :: t
  | t => '/' :: t

/-- The text with each run of slashes squeezed into one. -/
def squeeze : Text → Text
  | [] => []
  | c :: t => if c = '/' ∧ t.head? = some '/' then squeeze t else c :: squeeze t

def absolute (n : Normalization) (decoded : Text) : Text :=
  if n.allowDuplicateSlash then rooted decoded else squeeze (rooted decoded)

/-- Whether some component of the path is `..`. -/
def traverses (path : Text) : Bool := path.pieces.contains ['.', '.']

def normalize (n : Normalization) (request : Text) : Except RequestError Text :=
  if request = [] then .error .empty
  else
    match n.bytes (n.target request) with
    | .error index => .error (.badEscape request index)
    | .ok bytes =>
      match bytes.find? isForbidden with
      | some byte => .error (.forbiddenByte request byte)
      | none =>
        match Utf8.decode? bytes with
        | none => .error (.notUtf8 request)
        | some decoded =>
          if traverses (n.absolute decoded) then
            .error (.parentTraversal request (n.absolute decoded))
          else .ok (n.absolute decoded)

end Normalization

end FileRouting
