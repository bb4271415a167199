import Hwdb.Text.Basic

/-!
# `Hwdb.Text.Lines`: the lines of a text

A line ends at a line feed, or at a carriage return that stands right before a line
feed. What follows the last line feed is a line only if it is not empty, and a
carriage return at its end belongs to it.

`lines_append_lineFeed` splits off the first line, and `lines_of_not_mem` says what
the lines are when no line feed is left.
-/

set_option autoImplicit false

namespace Hwdb.Text

/-- The text without one carriage return at its end. -/
def dropReturn (t : Text) : Text :=
  if t.getLast? = some '\r' then t.dropLast else t

/-- The lines of a text, in order. -/
def lines (t : Text) : List Text :=
  let ps := t.splitOn '\n'
  ps.dropLast.map dropReturn ++ (ps.getLast?.filter (· != [])).toList

/-- The empty text has no line. -/
@[simp]
theorem lines_nil : lines [] = [] := rfl

/-- The first line ends at the first line feed, and the rest has its own lines. A carriage
return in front of the line feed is part of the line ending. -/
theorem lines_append_lineFeed {l : Text} (t : Text) (h : '\n' ∉ l) :
    lines (l ++ '\n' :: t) = dropReturn l :: lines t := by
  simp only [lines, List.splitOn_append_cons_self_of_not_mem h]
  obtain ⟨p, ps, hp⟩ := List.exists_cons_of_ne_nil (List.splitOn_ne_nil '\n' t)
  simp [hp]

/-- Without a line feed there is one line, or none if the text is empty. A carriage return
at the end stays with the line then. -/
theorem lines_of_not_mem {l : Text} (h : '\n' ∉ l) :
    lines l = if l = [] then [] else [l] := by
  simp only [lines, List.splitOn_eq_singleton h]
  by_cases hl : l = [] <;> simp [hl, Option.filter]

end Hwdb.Text
