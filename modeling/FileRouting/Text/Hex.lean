import FileRouting.Text

/-!
# Hexadecimal digits

The digits of base sixteen, read in either case. `hexValue?` takes a code, so that it serves
characters and bytes alike.
-/

namespace FileRouting

/-- The value of the hexadecimal digit with the given ASCII code. -/
def hexValue? (code : Nat) : Option Nat :=
  if 0x30 ≤ code ∧ code ≤ 0x39 then some (code - 0x30)
  else if 0x41 ≤ code ∧ code ≤ 0x46 then some (code - 0x37)
  else if 0x61 ≤ code ∧ code ≤ 0x66 then some (code - 0x57)
  else none

theorem hexValue?_lt {code value : Nat} (h : hexValue? code = some value) : value < 16 := by
  unfold hexValue? at h
  split at h
  · simp only [Option.some.injEq] at h
    omega
  split at h
  · simp only [Option.some.injEq] at h
    omega
  split at h
  · simp only [Option.some.injEq] at h
    omega
  · simp at h

/-- The number that hexadecimal digits write, at least one of them. -/
def hexNumber? (digits : Text) : Option Nat :=
  if digits = [] then none
  else (digits.mapM fun c => hexValue? c.toNat).map (List.foldl (16 * · + ·) 0)

end FileRouting
