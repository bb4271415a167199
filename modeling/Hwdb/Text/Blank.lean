import Hwdb.Text.Basic

/-!
# `Hwdb.Text.Blank`: blank characters and trimming

A character is blank when it has the Unicode property `White_Space`. There are
twenty-five of them, far more than `Char.isWhitespace` knows, so the property is kept here
as a table of code point ranges.
-/

set_option autoImplicit false

namespace Hwdb.Text

/-- The code points with the property `White_Space`, as ranges with both ends
included, in increasing order. -/
def blankRanges : List (Nat × Nat) :=
  [(0x0009, 0x000D), (0x0020, 0x0020), (0x0085, 0x0085), (0x00A0, 0x00A0),
    (0x1680, 0x1680), (0x2000, 0x200A), (0x2028, 0x2029), (0x202F, 0x202F),
    (0x205F, 0x205F), (0x3000, 0x3000)]

/-- Whether a character is blank. -/
def isBlank (c : Char) : Bool :=
  blankRanges.any fun range => range.1 ≤ c.toNat && c.toNat ≤ range.2

/-- The table has all twenty-five. -/
example :
    (blankRanges.flatMap fun range =>
      List.range' range.1 (range.2 + 1 - range.1)).length = 25 := by decide

/-- The text without the blank characters at its end. -/
def trimEnd (t : Text) : Text :=
  (t.reverse.dropWhile isBlank).reverse

/-- The text up to its first `#`, without the blank characters at the end of what is
left. -/
def withoutComment (t : Text) : Text :=
  trimEnd (t.takeWhile (· != '#'))

end Hwdb.Text
