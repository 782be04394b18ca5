import FileRouting.Text

/-!
# Text as bytes

Requests and file names are byte strings that ought to be UTF-8. `Utf8.encode` writes text as
bytes. Reading runs a small machine over the bytes, one byte a step: `Utf8.Pending` is what a
character begun still needs, and `Utf8.step` gives the characters that a byte completes. A faulty
stretch of bytes, cut off at the first byte that rules a character out, yields one `none`.

* `decode?` accepts exactly the byte strings without such a stretch;
* `decodeLossy` writes U+FFFD for each;
* `decode?_encode` and `decodeLossy_encode` say that both undo `encode`.
-/

namespace FileRouting

abbrev Bytes := List UInt8

namespace Utf8

def encode (t : Text) : Bytes := t.flatMap String.utf8EncodeChar

/-- A character begun: the bits read so far, how many bytes it needs after the next one, and the
least and the greatest value of the next byte. -/
structure Pending where
  code : Nat
  left : Nat
  low : Nat
  high : Nat
  deriving DecidableEq, Repr

/-- The first byte of a character: a whole one, the beginning of a longer one, or a fault. The
second byte of a longer one is bounded so that no character is written longer than it need be, none
is a surrogate, and none is beyond the last code point. -/
def start (b : Nat) : List (Option Char) × Option Pending :=
  if b < 0x80 then ([some (Char.ofNat b)], none)
  else if b < 0xC2 then ([none], none)
  else if b < 0xE0 then ([], some ⟨b - 0xC0, 0, 0x80, 0xBF⟩)
  else if b < 0xF0 then
    ([], some ⟨b - 0xE0, 1, if b = 0xE0 then 0xA0 else 0x80, if b = 0xED then 0x9F else 0xBF⟩)
  else if b < 0xF5 then
    ([], some ⟨b - 0xF0, 2, if b = 0xF0 then 0x90 else 0x80, if b = 0xF4 then 0x8F else 0xBF⟩)
  else ([none], none)

/-- One byte: the characters and faults it settles, and the character then under way. -/
def step : Option Pending → Nat → List (Option Char) × Option Pending
  | none, b => start b
  | some p, b =>
    if p.low ≤ b ∧ b ≤ p.high then
      match p.left with
      | 0 => ([some (Char.ofNat (p.code * 64 + b % 64))], none)
      | left + 1 => ([], some ⟨p.code * 64 + b % 64, left, 0x80, 0xBF⟩)
    else (none :: (start b).1, (start b).2)

/-- The characters of a byte string, with `none` for each faulty stretch, read from a character
that is already under way. -/
def piecesFrom : Option Pending → Bytes → List (Option Char)
  | none, [] => []
  | some _, [] => [none]
  | p, b :: bytes => (step p b.toNat).1 ++ piecesFrom (step p b.toNat).2 bytes

def pieces (bytes : Bytes) : List (Option Char) := piecesFrom none bytes

/-- The text of a byte string that is UTF-8 throughout. -/
def decode? (bytes : Bytes) : Option Text := (pieces bytes).mapM id

/-- The text of a byte string, with U+FFFD for each faulty stretch. -/
def decodeLossy (bytes : Bytes) : Text := (pieces bytes).map (·.getD '\uFFFD')

/-! ## Reading what was written -/

theorem toNat_ofNat_byte {n : Nat} (h : n < 256) : (UInt8.ofNat n).toNat = n := by
  rw [UInt8.toNat_ofNat']
  exact Nat.mod_eq_of_lt h

theorem piecesFrom_last {p : Pending} {n : Nat} (hn : n < 256) (hlow : p.low ≤ n)
    (hhigh : n ≤ p.high) (hleft : p.left = 0) (bytes : Bytes) :
    piecesFrom (some p) (UInt8.ofNat n :: bytes) =
      some (Char.ofNat (p.code * 64 + n % 64)) :: piecesFrom none bytes := by
  simp only [piecesFrom, toNat_ofNat_byte hn, step, hlow, hhigh, and_self, if_true, hleft]
  rfl

theorem piecesFrom_more {p : Pending} {n left : Nat} (hn : n < 256) (hlow : p.low ≤ n)
    (hhigh : n ≤ p.high) (hleft : p.left = left + 1) (bytes : Bytes) :
    piecesFrom (some p) (UInt8.ofNat n :: bytes) =
      piecesFrom (some ⟨p.code * 64 + n % 64, left, 0x80, 0xBF⟩) bytes := by
  simp only [piecesFrom, toNat_ofNat_byte hn, step, hlow, hhigh, and_self, if_true, hleft]
  rfl

theorem piecesFrom_start {p : Pending} {n : Nat} (hn : n < 256) (hstart : start n = ([], some p))
    (bytes : Bytes) : piecesFrom none (UInt8.ofNat n :: bytes) = piecesFrom (some p) bytes := by
  simp only [piecesFrom, toNat_ofNat_byte hn, step, hstart]
  rfl

theorem piecesFrom_encodeChar (c : Char) (bytes : Bytes) :
    piecesFrom none (String.utf8EncodeChar c ++ bytes) = some c :: piecesFrom none bytes := by
  have hvalid : c.toNat < 0xD800 ∨ 0xDFFF < c.toNat ∧ c.toNat < 0x110000 := c.valid
  have hchar : Char.ofNat c.toNat = c := Char.ofNat_toNat c
  unfold String.utf8EncodeChar
  simp only [show c.val.toNat = c.toNat from rfl]
  generalize c.toNat = n at hvalid hchar
  split
  · next h1 =>
    simp only [List.cons_append, List.nil_append, piecesFrom, step, start,
      toNat_ofNat_byte (show n < 256 by omega), if_pos (show n < 0x80 by omega), hchar]
  split
  · next h1 h2 =>
    simp only [List.cons_append, List.nil_append]
    rw [piecesFrom_start (by omega)
      (by rw [start, if_neg (by omega), if_neg (by omega), if_pos (by omega)])]
    rw [piecesFrom_last (by omega) (by simp only; omega) (by simp only; omega) rfl]
    rw [← hchar]
    simp only
    congr 3
    omega
  split
  · next h1 h2 h3 =>
    simp only [List.cons_append, List.nil_append]
    rw [piecesFrom_start (by omega)
      (by rw [start, if_neg (by omega), if_neg (by omega), if_neg (by omega), if_pos (by omega)])]
    rw [piecesFrom_more (by omega) (by simp only; split <;> omega)
      (by simp only; split <;> omega) rfl]
    rw [piecesFrom_last (by omega) (by simp only; omega) (by simp only; omega) rfl]
    rw [← hchar]
    simp only
    congr 3
    omega
  · next h1 h2 h3 =>
    simp only [List.cons_append, List.nil_append]
    rw [piecesFrom_start (by omega) (by rw [start, if_neg (by omega), if_neg (by omega),
      if_neg (by omega), if_neg (by omega), if_pos (by omega)])]
    rw [piecesFrom_more (by omega) (by simp only; split <;> omega)
      (by simp only; split <;> omega) rfl]
    rw [piecesFrom_more (by omega) (by simp only; omega) (by simp only; omega) rfl]
    rw [piecesFrom_last (by omega) (by simp only; omega) (by simp only; omega) rfl]
    rw [← hchar]
    simp only
    congr 3
    omega

@[simp] theorem pieces_encode (t : Text) : pieces (encode t) = t.map some := by
  induction t with
  | nil => rfl
  | cons c t ih =>
      rw [encode, List.flatMap_cons, pieces, piecesFrom_encodeChar]
      exact congrArg (some c :: ·) ih

@[simp] theorem decode?_encode (t : Text) : decode? (encode t) = some t := by
  rw [decode?, pieces_encode]
  induction t with
  | nil => rfl
  | cons c t ih =>
      rw [List.map_cons, List.mapM_cons, ih]
      rfl

@[simp] theorem decodeLossy_encode (t : Text) : decodeLossy (encode t) = t := by
  rw [decodeLossy, pieces_encode, List.map_map]
  exact List.map_id t

end Utf8

end FileRouting
