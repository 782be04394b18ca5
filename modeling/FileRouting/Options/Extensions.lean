import FileRouting.Text.Blank
import FileRouting.Text.Hex

/-!
# File extensions

Route files and layout files end in one of four extensions. A set of extensions is a byte with one
bit for each of them; bits that stand for no extension are kept, and shown in the written form, but
select nothing.

The written form names the extensions in capitals, joined by bars, and gives the other bits as a
hexadecimal number: `JS | TSX | 0xf0`. `Extensions.read?` reads it, with blanks anywhere around the
parts and several numbers allowed.
-/

namespace FileRouting

inductive Extension where
  | js
  | jsx
  | ts
  | tsx
  deriving DecidableEq, Repr

namespace Extension

def all : List Extension := [js, jsx, ts, tsx]

def name : Extension → Text
  | js => "js".toList
  | jsx => "jsx".toList
  | ts => "ts".toList
  | tsx => "tsx".toList

def flag : Extension → Text
  | js => "JS".toList
  | jsx => "JSX".toList
  | ts => "TS".toList
  | tsx => "TSX".toList

def bit : Extension → UInt8
  | js => 1
  | jsx => 2
  | ts => 4
  | tsx => 8

def ofName? (t : Text) : Option Extension := all.find? fun e => e.name = t

def ofFlag? (t : Text) : Option Extension := all.find? fun e => e.flag = t

theorem mem_all (e : Extension) : e ∈ all := by
  cases e <;> decide

end Extension

/-- A set of extensions, together with bits of no meaning. -/
structure Extensions where
  bits : UInt8
  deriving DecidableEq, Repr

namespace Extensions

def all : Extensions := ⟨0x0F⟩

def isEmpty (s : Extensions) : Bool := s.bits = 0

def contains (s : Extensions) (e : Extension) : Bool := s.bits &&& e.bit = e.bit

def toList (s : Extensions) : List Extension := Extension.all.filter s.contains

/-- The bits that stand for no extension. -/
def unknown (s : Extensions) : UInt8 := s.bits &&& 0xF0

def names (s : Extensions) : List Text := s.toList.map Extension.name

theorem mem_toList {s : Extensions} {e : Extension} : e ∈ s.toList ↔ s.contains e := by
  simp [toList, Extension.mem_all]

/-! ## The written form -/

/-- The parts of the written form: the extensions, then the bits of no meaning as one number. -/
def parts (s : Extensions) : List Text :=
  s.toList.map Extension.flag ++
    if s.unknown = 0 then [] else ['0' :: 'x' :: Nat.toDigits 16 s.unknown.toNat]

def write (s : Extensions) : Text := List.intercalate " | ".toList s.parts

/-- The bits that one part of a written set stands for. -/
def readPart? : Text → Option UInt8
  | '0' :: 'x' :: digits =>
    (hexNumber? ((dropFront? ['+'] digits).getD digits)).bind fun n =>
      if n < 256 then some (UInt8.ofNat n) else none
  | part => (Extension.ofFlag? part).map Extension.bit

def union (bits : List UInt8) : Extensions := ⟨bits.foldl (· ||| ·) 0⟩

/-- The set with the given written form; a blank text stands for the empty set. -/
def read? (t : Text) : Option Extensions :=
  if t.trim = [] then some (union [])
  else ((t.splitOn '|').mapM fun part => readPart? (Text.trim part)).map union

end Extensions

end FileRouting
