/-!
# Numerals

The digits of a number in base ten and in base sixteen, in lower case and without leading zeros
unless a width is asked for.
-/

set_option autoImplicit false

namespace QbScript

namespace Numeral

def decimal (n : Nat) : String := String.ofList (Nat.toDigits 10 n)

def signed (i : Int) : String :=
  if i < 0 then "-" ++ decimal i.natAbs else decimal i.natAbs

def hex (n : Nat) : String := String.ofList (Nat.toDigits 16 n)

def padded (base width n : Nat) : List Char :=
  let digits := Nat.toDigits base n
  List.replicate (width - digits.length) '0' ++ digits

def paddedHex (width n : Nat) : String := String.ofList (padded 16 width n)

end Numeral

end QbScript
