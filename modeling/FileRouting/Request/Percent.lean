import FileRouting.Text.Hex
import FileRouting.Text.Utf8

/-!
# Percent-encoding

A percent sign and two hexadecimal digits stand for one byte. `Percent.decode` reads a byte string
from the left and fails at the first percent sign without two such digits behind it.
-/

namespace FileRouting

namespace Percent

/-- The byte that two hexadecimal digits stand for. -/
def escapedByte? (high low : UInt8) : Option UInt8 :=
  (hexValue? high.toNat).bind fun h => (hexValue? low.toNat).map fun l => UInt8.ofNat (16 * h + l)

/-- The bytes with each escape replaced by its byte, for bytes that begin at the given index; the
error is the index of the first percent sign that begins no escape. -/
def decodeFrom (index : Nat) : Bytes → Except Nat Bytes
  | [] => .ok []
  | b :: bytes =>
    if b = 0x25 then
      match bytes with
      | high :: low :: bytes =>
        match escapedByte? high low with
        | some byte => (decodeFrom (index + 3) bytes).map (byte :: ·)
        | none => .error index
      | _ => .error index
    else (decodeFrom (index + 1) bytes).map (b :: ·)

def decode (bytes : Bytes) : Except Nat Bytes := decodeFrom 0 bytes

end Percent

end FileRouting
