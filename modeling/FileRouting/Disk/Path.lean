import FileRouting.Text.Utf8

/-!
# Paths of files and directories

A path is a byte string. Two views of it matter:

* `Path.pieces` are the byte strings between its slashes, from which the text of other paths is
  made;
* `Path.components` are what the path means by itself: empty pieces do not count, nor does a dot
  anywhere but at the front. Paths are compared by their components, with `Path.order`, and one
  path lies in the subtree of another when its components start with the other's.

`Path.child` and `Path.join` write a path further. `Path.parent?` removes the last component and
keeps the text before it, and `Path.ancestors` repeats that; `length_parent?` says that each step
makes the path shorter. `Path.absolute?` is the path as seen from the root directory, where a
relative path starts from a `WorkingDirectory`.
-/

namespace FileRouting

namespace Disk

def slash : UInt8 := 0x2F

def here : Bytes := [0x2E]

def above : Bytes := [0x2E, 0x2E]

def nameLimit : Nat := 255

def pathLimit : Nat := 4095

/-- The location of a file or directory, as it is written. -/
structure Path where
  bytes : Bytes
  deriving DecidableEq, Repr

/-- What a path consists of; `current` is the directory that a relative path starts from. -/
inductive Component where
  | root
  | current
  | parent
  | name (n : Bytes)
  deriving DecidableEq, Repr

namespace Component

/-- The component that stands between two slashes, if any. -/
def ofPiece? (piece : Bytes) : Option Component :=
  if piece = [] ∨ piece = here then none
  else if piece = above then some .parent
  else some (.name piece)

/-- The place of a component in the order: the root, the current directory, the parent directory,
and names byte by byte. -/
def key : Component → List Nat
  | root => [0]
  | current => [1]
  | parent => [2]
  | name n => 3 :: n.map UInt8.toNat

end Component

namespace Path

def ofText (t : Text) : Path := ⟨Utf8.encode t⟩

/-- The text that shows the path. -/
def display (p : Path) : Text := Utf8.decodeLossy p.bytes

def pieces (p : Path) : List Bytes := p.bytes.splitOn slash

def isAbsolute (p : Path) : Bool := p.bytes.head? = some slash

def endsWithSlash (p : Path) : Bool := p.bytes.getLast? = some slash

/-- The component that a path starts with, other than a name. -/
def lead (p : Path) : List Component :=
  if p.isAbsolute then [.root]
  else if p.pieces.head? = some here then [.current]
  else []

def components (p : Path) : List Component := p.lead ++ p.pieces.filterMap Component.ofPiece?

def Same (p q : Path) : Prop := p.components = q.components

instance (p q : Path) : Decidable (p.Same q) :=
  inferInstanceAs (Decidable (_ = _))

/-- Whether a path lies in the subtree of another one, or is that one. -/
def StartsWith (p q : Path) : Prop := q.components <+: p.components

instance (p q : Path) : Decidable (p.StartsWith q) :=
  inferInstanceAs (Decidable (_ <+: _))

def order (p q : Path) : Ordering :=
  compare (p.components.map Component.key) (q.components.map Component.key)

/-- The path of an entry of the directory at this path. -/
def child (p : Path) (name : Bytes) : Path :=
  if p.bytes = [] ∨ p.endsWithSlash then ⟨p.bytes ++ name⟩ else ⟨p.bytes ++ slash :: name⟩

/-- The path that another one means when it is written in the directory at this path: an absolute
one means the same everywhere. -/
def join (p q : Path) : Path := if q.isAbsolute then q else p.child q.bytes

/-! ## Parents -/

def slashed (pieces : List Bytes) : Bytes := pieces.flatMap (slash :: ·)

/-- Whether a piece behind the first slash is no component. -/
def isIdle (piece : Bytes) : Bool := piece = [] || piece = here

/-- The path with the given pieces; an empty piece alone means the root directory. -/
def ofPieces : Bytes → List Bytes → Path
  | [], [] => ⟨[slash]⟩
  | first, body => ⟨first ++ slashed body⟩

/-- The path without its last component; the root directory and the empty path have none. -/
def parent? (p : Path) : Option Path :=
  match p.pieces with
  | [] => none
  | first :: body =>
    match body.reverse.dropWhile isIdle with
    | _ :: before => some (ofPieces first (before.dropWhile isIdle).reverse)
    | [] => if first = [] then none else some ⟨[]⟩

theorem intercalate_slash (first : Bytes) (body : List Bytes) :
    List.intercalate [slash] (first :: body) = first ++ slashed body := by
  induction body generalizing first with
  | nil => simp [slashed, List.intercalate]
  | cons piece body ih =>
      have h := ih piece
      simp only [List.intercalate, List.intersperse_cons_cons, List.flatten_cons] at h ⊢
      rw [h]
      simp [slashed]

theorem bytes_eq_of_pieces {p : Path} {first : Bytes} {body : List Bytes}
    (h : p.pieces = first :: body) : p.bytes = first ++ slashed body := by
  rw [← intercalate_slash, ← h, pieces, List.intercalate_splitOn]

@[simp] theorem slashed_append (as bs : List Bytes) :
    slashed (as ++ bs) = slashed as ++ slashed bs := by
  simp [slashed]

theorem length_slashed_reverse (pieces : List Bytes) :
    (slashed pieces.reverse).length = (slashed pieces).length := by
  induction pieces with
  | nil => rfl
  | cons piece pieces ih =>
      simp only [List.reverse_cons, slashed_append, List.length_append, ih]
      simp only [slashed, List.flatMap_cons, List.flatMap_nil, List.append_nil, List.length_append]
      omega

theorem length_slashed_dropWhile (f : Bytes → Bool) (pieces : List Bytes) :
    (slashed (pieces.dropWhile f)).length ≤ (slashed pieces).length := by
  induction pieces with
  | nil => exact Nat.le_refl _
  | cons piece pieces ih =>
      rw [List.dropWhile_cons]
      split
      · simp only [slashed, List.flatMap_cons, List.length_append] at ih ⊢
        omega
      · exact Nat.le_refl _

theorem length_parent? {p q : Path} (h : p.parent? = some q) : q.bytes.length < p.bytes.length := by
  unfold parent? at h
  split at h
  · simp at h
  · next first body hpieces =>
    rw [bytes_eq_of_pieces hpieces]
    split at h
    · next last before hbody =>
      have hdrop := length_slashed_dropWhile isIdle body.reverse
      have hbefore := length_slashed_dropWhile isIdle before
      have hlast : isIdle last = false := by
        have hne : body.reverse.dropWhile isIdle ≠ [] := by simp [hbody]
        have := List.head_dropWhile_not isIdle hne
        simpa [hbody] using this
      have hlength : 0 < last.length := by
        cases last with
        | nil => simp [isIdle] at hlast
        | cons b last => simp
      rw [hbody, length_slashed_reverse] at hdrop
      have hcons : (slashed (last :: before)).length =
          last.length + 1 + (slashed before).length := by
        simp only [slashed, List.flatMap_cons, List.length_append, List.length_cons]
      simp only [Option.some.injEq] at h
      subst h
      unfold ofPieces
      split
      · simp only [List.length_cons, List.length_nil, List.nil_append]
        omega
      · simp only [List.length_append, length_slashed_reverse]
        omega
    · split at h
      · simp at h
      · next hfirst =>
        simp only [Option.some.injEq] at h
        subst h
        cases first with
        | nil => simp at hfirst
        | cons b first => simp

/-- The directories that a path lies in, the nearest first. -/
def ancestors (p : Path) : List Path :=
  match h : p.parent? with
  | none => []
  | some q =>
    have : q.bytes.length < p.bytes.length := length_parent? h
    q :: ancestors q
termination_by p.bytes.length

/-! ## Absolute paths -/

end Path

/-- The directory that relative paths start from, by the names on the way to it from the root
directory. -/
structure WorkingDirectory where
  names : List Bytes
  proper : ∀ name ∈ names, Path.isIdle name = false ∧ slash ∉ name

/-- The root directory as the working directory. -/
def WorkingDirectory.root : WorkingDirectory := ⟨[], by simp⟩

namespace Path

/-- The slashes that an absolute path is written with at the front: exactly two stay two. -/
def rootBytes (p : Path) : Bytes :=
  match dropFront? [slash, slash] p.bytes with
  | some rest => if rest.head? = some slash then [slash] else [slash, slash]
  | none => [slash]

/-- The pieces of a path that count when it is followed from the root directory: those of a relative
path stand behind the names of the working directory. -/
def absolutePieces (p : Path) (current : WorkingDirectory) : List Bytes :=
  (if p.isAbsolute then [] else current.names) ++ p.pieces.filter fun piece => !isIdle piece

/-- The path without repeated slashes and dots between them, as seen from the root directory when a
relative path starts from the given working directory; the empty path has none. Parent components
and a slash at the end stay. -/
def absolute? (p : Path) (current : WorkingDirectory) : Option Path :=
  if p.bytes = [] then none
  else
    match p.absolutePieces current with
    | [] => some ⟨p.rootBytes⟩
    | first :: body =>
      some ⟨p.rootBytes ++ first ++ slashed body ++ if p.endsWithSlash then [slash] else []⟩

/-- The names to follow from where the path starts; a slash at the end asks for a directory. -/
def steps (p : Path) : List Bytes :=
  p.pieces.filter (· ≠ []) ++ if p.endsWithSlash then [here] else []

end Path

end Disk

end FileRouting
