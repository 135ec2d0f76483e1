/-!
# Hexadecimal numbers

Numbers in base sixteen with lower-case digits and leading zeros.
-/

namespace ClassForge

/-- The number in base sixteen, with leading zeros up to `width` digits. -/
def hexPadded (width n : Nat) : String :=
  let digits := Nat.toDigits 16 n
  String.ofList (List.replicate (width - digits.length) '0' ++ digits)

end ClassForge
