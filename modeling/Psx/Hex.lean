/-!
# Hexadecimal text

Addresses and words are written with a fixed number of capital hexadecimal digits.
-/

namespace Psx

/-- The digit of a number below sixteen, in capitals. -/
def hexDigit (n : Nat) : Char :=
  if n < 10 then Char.ofNat (0x30 + n) else Char.ofNat (0x37 + n)

/-- The last `digits` hexadecimal digits of a number, in capitals. -/
def hexDigits : Nat → Nat → List Char
  | 0, _ => []
  | digits + 1, n => hexDigits digits (n / 16) ++ [hexDigit (n % 16)]

def hexString (digits n : Nat) : String := String.ofList (hexDigits digits n)

def hexWord (n : UInt32) : String := hexString 8 n.toNat

def hexAddress (n : UInt32) : String := "0x" ++ hexWord n

end Psx
