/-!
# `Hwdb.Text.Basic`: texts and their bytes

A text is a list of characters. Its UTF-8 encoding gives the order in which the
library lists texts: byte by byte, which is also the order of their code points.
-/

set_option autoImplicit false

namespace Hwdb

/-- A piece of text, as the list of its characters. -/
abbrev Text := List Char

namespace Text

/-- The bytes that encode a text in UTF-8. -/
def utf8 (t : Text) : List UInt8 :=
  t.flatMap String.utf8EncodeChar

/-- Texts are compared by their UTF-8 bytes, the first difference deciding. -/
def byteOrder (s t : Text) : Ordering :=
  compareOn utf8 s t

end Text

end Hwdb
