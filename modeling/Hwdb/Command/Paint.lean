import Hwdb.Text.Basic

/-!
# `Hwdb.Command.Paint`: coloured text

A terminal takes a style from an escape sequence and keeps it until the sequence that
resets it. Painted text stands between the two. If it holds a reset itself, the style is
given again after it.
-/

set_option autoImplicit false

namespace Hwdb

/-- A style of a terminal. -/
inductive Style
  /-- Red letters. -/
  | red
  /-- Bold red letters. -/
  | boldRed
  deriving DecidableEq, Repr

namespace Style

/-- The sequence that switches to a style. -/
def sequence : Style → Text
  | red => "\x1b[31m".toList
  | boldRed => "\x1b[1;31m".toList

/-- The sequence that resets the style. -/
def reset : Text :=
  "\x1b[0m".toList

/-- A text in which the style is given again after each reset. -/
def afterResets (style : Style) (t : Text) : Text :=
  t.foldr
    (fun c painted =>
      match reset.isPrefixOf? (c :: painted) with
      | some rest => reset ++ style.sequence ++ rest
      | none => c :: painted)
    []

/-- A text in a style. -/
def paint (style : Style) (t : Text) : Text :=
  style.sequence ++ style.afterResets t ++ reset

end Style

end Hwdb
