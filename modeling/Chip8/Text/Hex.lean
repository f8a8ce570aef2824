-- Hexadecimal text in capital digits.

namespace Chip8
namespace Hex

-- At least `width` digits, filled up with zeros on the left and never cut.
def digits (width n : Nat) : String :=
  String.ofList <| ((Nat.toDigits 16 n).map Char.toUpper).leftpad width '0'

-- The digits behind the mark `0x`.
def literal (width n : Nat) : String :=
  "0x" ++ digits width n

end Hex
end Chip8
