/-! # Hexadecimal numerals

Numerals are written with the mark `0x` and lower-case digits. -/

namespace EventRecorder

/-- The numeral of `n` with as many digits as needed, at least `width` of them. -/
def hexPadded (width : Nat) (n : Nat) : String :=
  let digits := Nat.toDigits 16 n
  "0x" ++ String.ofList (List.replicate (width - digits.length) '0' ++ digits)

/-- The numeral of `n` without leading zeros. -/
def hex (n : Nat) : String := hexPadded 1 n

end EventRecorder
