import Hwdb.Text.Basic

/-!
# `Hwdb.Text.Decimal`: natural numbers in decimal notation

Numbers are written without leading zeros. Reading takes any run of digits, leading
zeros included. `read_write` says that reading undoes writing.
-/

set_option autoImplicit false

namespace Hwdb.Decimal

/-- The decimal digits of a number, the first of them not zero unless it is alone. -/
def write (n : Nat) : Text :=
  Nat.toDigits 10 n

/-- The number that a run of decimal digits denotes. -/
def read (digits : Text) : Nat :=
  Nat.ofDigitChars 10 digits 0

/-- The digits that a number is written with denote it. -/
theorem read_write (n : Nat) : read (write n) = n :=
  Nat.ofDigitChars_toDigits (by decide) (by decide)

end Hwdb.Decimal
