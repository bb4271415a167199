import Hwdb.Reader
import Hwdb.Text.Decimal

/-!
# `Hwdb.Dimension`: widths and heights

A dimension is written `WIDTHxHEIGHT`. Each side is a decimal number that fits into
32 bits, with any number of leading zeros. Zero is read like any other number: whether
it makes sense is a separate question, answered by `isPositive`.
-/

set_option autoImplicit false

namespace Hwdb

/-- A width and a height. -/
structure Dimension where
  /-- The horizontal side. -/
  width : UInt32
  /-- The vertical side. -/
  height : UInt32
  deriving DecidableEq, Repr

namespace Dimension

/-- Whether both sides are above zero. -/
def isPositive (d : Dimension) : Bool :=
  0 < d.width && 0 < d.height

/-- The written form of a dimension, without leading zeros. -/
def text (d : Dimension) : Text :=
  Decimal.write d.width.toNat ++ 'x' :: Decimal.write d.height.toNat

/-- Reads one side, with as many digits as there are. A number that is too large is
refused at its first digit. -/
def sideReader : Reader UInt32 := fun t => do
  let (digits, rest) ← Reader.takeWhile1 .digit Char.isDigit t
  if h : Decimal.read digits < UInt32.size then
    return (UInt32.ofNatLT (Decimal.read digits) h, rest)
  else
    throw ⟨.word, t⟩

/-- Reads a dimension. -/
def reader : Reader Dimension := do
  let width ← sideReader
  Reader.char 'x'
  let height ← sideReader
  return { width, height }

end Dimension

end Hwdb
