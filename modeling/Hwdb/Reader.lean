import Hwdb.Text.Basic

/-!
# `Hwdb.Reader`: reading from the front of a text

A reader takes a piece from the front of a text and leaves the rest. When the piece
is not there, it says what it expected and keeps the text from the place where it
looked for it. `whole?` asks a reader to leave nothing.
-/

set_option autoImplicit false

namespace Hwdb

/-- What a reader looked for and did not find. -/
inductive Expected
  /-- One given character. -/
  | char (c : Char)
  /-- The name of a category. -/
  | category
  /-- The name of a connection. -/
  | connection
  /-- A pattern, which has one character at least. -/
  | pattern
  /-- The capital letter at the beginning of a tag. -/
  | capital
  /-- A value, which has one character at least. -/
  | value
  /-- A digit. -/
  | digit
  /-- A number that fits into 32 bits. -/
  | word
  deriving DecidableEq, Repr

/-- Why a reader stopped: what it expected, and the text where it expected it. -/
structure Refusal where
  /-- What stood missing. -/
  expected : Expected
  /-- The unread text, from the place where the missing piece would begin. -/
  rest : Text
  deriving DecidableEq, Repr

/-- A reader of values from the front of a text. -/
abbrev Reader (α : Type) := StateT Text (Except Refusal) α

namespace Reader

variable {α : Type}

/-- Reads one given character. -/
def char (c : Char) : Reader Unit
  | [] => .error ⟨.char c, []⟩
  | d :: rest => if d = c then .ok ((), rest) else .error ⟨.char c, d :: rest⟩

/-- Reads one character of a class. -/
def satisfying (expected : Expected) (p : Char → Bool) : Reader Char
  | [] => .error ⟨expected, []⟩
  | c :: rest => if p c then .ok (c, rest) else .error ⟨expected, c :: rest⟩

/-- Reads the longest run of characters of a class, which may be empty. -/
def takeWhile (p : Char → Bool) : Reader Text := fun t =>
  .ok (t.takeWhile p, t.dropWhile p)

/-- Reads the longest run of characters of a class, which must not be empty. -/
def takeWhile1 (expected : Expected) (p : Char → Bool) : Reader Text := fun t =>
  if t.takeWhile p = [] then .error ⟨expected, t⟩
  else .ok (t.takeWhile p, t.dropWhile p)

/-- Reads everything that is left. -/
def remaining : Reader Text := fun t =>
  .ok (t, [])

/-- Reads a `#` and everything after it, and gives what stands after it. -/
def comment : Reader Text := do
  char '#'
  remaining

/-- Reads the spelling of the first item in the list whose spelling is there. -/
def oneOf (expected : Expected) (spelling : α → Text) (items : List α) : Reader α :=
  fun t =>
    match items.findSome? fun a => (spelling a).isPrefixOf? t |>.map (a, ·) with
    | some found => .ok found
    | none => .error ⟨expected, t⟩

/-- Reads a piece if it is there, and nothing otherwise. -/
def optional (r : Reader α) : Reader (Option α) := fun t =>
  match r t with
  | .ok (a, rest) => .ok (some a, rest)
  | .error _ => .ok (none, t)

/-- What a reader makes of a text, if it leaves nothing of it. -/
def whole? (r : Reader α) (t : Text) : Option α :=
  match r t with
  | .ok (a, []) => some a
  | _ => none

/-- A reader accepts a whole text exactly if it leaves nothing of it. -/
theorem whole?_eq_some_iff {r : Reader α} {t : Text} {a : α} :
    r.whole? t = some a ↔ r t = .ok (a, []) := by
  unfold whole?
  split
  · next h => simp [h]
  · next h =>
      constructor
      · intro hnone
        cases hnone
      · intro hok
        exact absurd hok (h a)

/-- A reader of one character takes it off the front and accepts no other. -/
theorem char_eq_ok_iff {c : Char} {t rest : Text} {u : Unit} :
    char c t = .ok (u, rest) ↔ t = c :: rest := by
  cases t with
  | nil => simp [char]
  | cons d t =>
      by_cases h : d = c <;> simp [char, h]

/-- A run may be empty, so reading it never fails. -/
theorem takeWhile_eq_ok (p : Char → Bool) (t : Text) :
    takeWhile p t = .ok (t.takeWhile p, t.dropWhile p) := rfl

end Reader

end Hwdb
