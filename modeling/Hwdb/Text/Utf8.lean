import Hwdb.Text.Basic

/-!
# `Hwdb.Text.Utf8`: reading bytes as UTF-8

`text?` reads bytes strictly and `lossy` reads any bytes, with U+FFFD in place of
what cannot be read. Lossy reading goes by *maximal pieces*: the longest run of bytes
at the front that begins a well-formed character, or one byte if none does. A piece
that is a whole character stands for it, and any other piece becomes one U+FFFD.

`text?_eq_some_iff` says that strict reading accepts exactly the encodings of texts.
-/

set_option autoImplicit false

namespace Hwdb.Utf8

/-- The text that the bytes encode, if they are the encoding of one. -/
def text? (bytes : List UInt8) : Option Text :=
  (String.fromUTF8? bytes.toByteArray).map String.toList

/-- The bounds of each byte that has to follow the first byte of a character. Some
first bytes narrow the byte right after them: that shuts out long forms, surrogates and
numbers above U+10FFFF. A byte that is a character by itself, or that begins none, asks
for nothing. -/
def following (first : UInt8) : List (UInt8 × UInt8) :=
  if first < 0xC2 then []
  else if first < 0xE0 then [(0x80, 0xBF)]
  else if first = 0xE0 then [(0xA0, 0xBF), (0x80, 0xBF)]
  else if first = 0xED then [(0x80, 0x9F), (0x80, 0xBF)]
  else if first < 0xF0 then [(0x80, 0xBF), (0x80, 0xBF)]
  else if first = 0xF0 then [(0x90, 0xBF), (0x80, 0xBF), (0x80, 0xBF)]
  else if first < 0xF4 then [(0x80, 0xBF), (0x80, 0xBF), (0x80, 0xBF)]
  else if first = 0xF4 then [(0x80, 0x8F), (0x80, 0xBF), (0x80, 0xBF)]
  else []

/-- How many bytes at the front stay within the bounds given for them. -/
def fitting : List (UInt8 × UInt8) → List UInt8 → Nat
  | (low, high) :: bounds, b :: bytes =>
      if low ≤ b ∧ b ≤ high then fitting bounds bytes + 1 else 0
  | _, _ => 0

/-- The bytes as text, each maximal piece that is no character as one U+FFFD. -/
def lossy : List UInt8 → Text
  | [] => []
  | first :: bytes =>
      let size := fitting (following first) bytes
      (text? (first :: bytes.take size)).getD ['\uFFFD'] ++ lossy (bytes.drop size)
termination_by bytes => bytes.length
decreasing_by simp only [List.length_drop, List.length_cons]; omega

/-- What is read strictly is a text with exactly those bytes. So nothing is lost or replaced
on the way. -/
theorem utf8_of_text?_eq_some {bytes : List UInt8} {t : Text}
    (h : text? bytes = some t) : t.utf8 = bytes := by
  obtain ⟨s, hs, rfl⟩ := Option.map_eq_some_iff.1 h
  have hbytes : s.toByteArray = bytes.toByteArray := by
    unfold String.fromUTF8? at hs
    split at hs
    · cases hs
      rfl
    · cases hs
  rw [← String.ofList_toList (s := s), String.toByteArray_ofList] at hbytes
  have := congrArg (fun b : ByteArray => b.data.toList) hbytes
  simpa [Text.utf8, List.utf8Encode] using this

/-- The encoding of a text is read back as that text. This is what makes the encoding of a
text tell the text. -/
theorem text?_utf8 (t : Text) : text? t.utf8 = some t := by
  have hbytes : t.utf8.toByteArray = (String.ofList t).toByteArray := by
    rw [String.toByteArray_ofList]
    rfl
  have hread : String.fromUTF8? (String.ofList t).toByteArray
      = some (String.ofList t) := by
    unfold String.fromUTF8?
    rw [dif_pos (String.isValidUTF8 _)]
    exact congrArg some (String.toByteArray_inj.1 rfl)
  rw [text?, hbytes, hread, Option.map_some, String.toList_ofList]

/-- Bytes are read strictly exactly if they are the encoding of a text, and then as that
text. -/
theorem text?_eq_some_iff {bytes : List UInt8} {t : Text} :
    text? bytes = some t ↔ t.utf8 = bytes :=
  ⟨utf8_of_text?_eq_some, fun h => h ▸ text?_utf8 t⟩

end Hwdb.Utf8
