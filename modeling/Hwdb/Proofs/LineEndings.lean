import Hwdb.Proofs.Lines
import Hwdb.Record.Assembly

/-!
# `Hwdb.Proofs.LineEndings`: how lines end does not matter

Reading a file looks at the lines of its text and at nothing else (`Record.parse_congr`). So
two texts with the same lines are read alike, whether they are accepted or refused, and
the number of the last line, which an error at the end of a file has, is the same too.

Two changes leave the lines as they are. Carriage returns before all line feeds are dropped
with them (`Text.lines_withReturns`), as long as the text had none of its own. And a line
feed after the last line ends it without beginning another one (`Text.lines_append_end`).
There the last line must not end with a carriage return, which the line feed would take
away. `Record.parse_lineEndings` has both.
-/

set_option autoImplicit false

namespace Hwdb

namespace Text

/-- The text with a carriage return before each line feed. -/
def withReturns (t : Text) : Text :=
  t.flatMap fun c => if c = '\n' then ['\r', '\n'] else [c]

/-- Character by character, a line feed gets its carriage return and everything else stays.
It is the definition on a text that is taken from the front. -/
theorem withReturns_cons (c : Char) (t : Text) :
    withReturns (c :: t) = (if c = '\n' then ['\r', '\n'] else [c]) ++ withReturns t :=
  List.flatMap_cons

/-- The two parts of a text get their carriage returns each by itself. With this a text can
be taken line by line. -/
theorem withReturns_append (s t : Text) :
    withReturns (s ++ t) = withReturns s ++ withReturns t :=
  List.flatMap_append

/-- A text without a line feed stays as it is, be it a single line or what stands after the
last line feed. -/
theorem withReturns_of_not_mem {l : Text} (h : '\n' ∉ l) : withReturns l = l := by
  induction l with
  | nil => rfl
  | cons c l ih =>
      obtain ⟨hc, hl⟩ := List.ne_and_not_mem_of_not_mem_cons h
      rw [withReturns_cons, if_neg hc.symm, ih hl, List.singleton_append]

/-- A line gets its carriage return in front of its line feed. The carriage return is the
last character of the line then. -/
theorem withReturns_append_lineFeed {l : Text} (t : Text) (h : '\n' ∉ l) :
    withReturns (l ++ '\n' :: t) = l ++ ['\r'] ++ '\n' :: withReturns t := by
  rw [withReturns_append, withReturns_of_not_mem h, withReturns_cons, if_pos rfl]
  simp

/-- The carriage return that a line has got is dropped again. Only this one is dropped, so
the line is what it was. -/
theorem dropReturn_concat (l : Text) : dropReturn (l ++ ['\r']) = l := by
  simp [dropReturn]

/-- Carriage returns before all line feeds leave the lines as they are. If the text had
carriage returns of its own, one of them could be left over at the end of a line. -/
theorem lines_withReturns {t : Text} (h : '\r' ∉ t) : lines (withReturns t) = lines t := by
  induction t using lineInduction with
  | last l hl => rw [withReturns_of_not_mem hl]
  | cons l t hl ih =>
      have hreturn : '\r' ∉ l := by
        intro hmem
        exact h (List.mem_append_left _ hmem)
      have ih := ih (by
        intro hmem
        exact h (List.mem_append_right _ (List.mem_cons_of_mem _ hmem)))
      have hfeed : '\n' ∉ l ++ ['\r'] := by simp [hl]
      -- The line loses the carriage return that it was given, and had none to lose before.
      rw [withReturns_append_lineFeed t hl, lines_append_lineFeed _ hfeed, dropReturn_concat,
        lines_append_lineFeed t hl, dropReturn_of_not_mem hreturn, ih]

/-- A line feed after the last line is no further line. The hypotheses say that the last
line has not ended yet, and that no carriage return of its own would go with the line
feed. -/
theorem lines_append_end {t : Text} (hne : t ≠ []) (hfeed : t.getLast? ≠ some '\n')
    (hreturn : t.getLast? ≠ some '\r') : lines (t ++ ['\n']) = lines t := by
  obtain ⟨s, l, rfl, hs, hl⟩ := exists_ended_append t
  have hlne : l ≠ [] := by
    intro hnil
    subst hnil
    rw [List.append_nil] at hne hfeed
    exact hfeed (hs.resolve_left hne)
  have hlast : (s ++ l).getLast? = l.getLast? := List.getLast?_append_of_ne_nil s hlne
  -- What stands after the last line feed is `l`, which is a line with another one or without.
  rw [hlast] at hreturn
  rw [List.append_assoc, lines_append hs, lines_append hs, lines_append_lineFeed [] hl,
    dropReturn_of_getLast?_ne hreturn, lines_of_not_mem hl, if_neg hlne, lines_nil]

end Text

namespace Record

/-- Reading looks at the lines of a text alone. So whatever leaves the lines as they are
leaves the records and the errors as they are. -/
theorem parse_congr (path : Path) {s t : Text} (h : s.lines = t.lines) :
    Record.parse path s = Record.parse path t := by
  unfold Record.parse Assembly.feedText
  rw [h]

/-- Files that end their lines with carriage returns and line feeds are read like those that
end them with line feeds alone, and a file whose last line is ended is read like one whose
last line is not. Records and errors are the same. -/
theorem parse_lineEndings (path : Path) (t : Text) :
    ('\r' ∉ t → Record.parse path t.withReturns = Record.parse path t) ∧
      (t ≠ [] → t.getLast? ≠ some '\n' → t.getLast? ≠ some '\r' →
        Record.parse path (t ++ ['\n']) = Record.parse path t) := by
  constructor
  · intro hreturn
    exact parse_congr path (Text.lines_withReturns hreturn)
  · intro hne hfeed hreturn
    exact parse_congr path (Text.lines_append_end hne hfeed hreturn)

/-- A blank line and a comment among the lines of a record that is read, and a file that is
refused at its end. -/
theorem parse_lineEndings_both :
    ∃ (t u : Text) (r : Record), t = "#\n\nlibinput:name:a\n A=1 #b".toList ∧
      u = "libinput:name:a\n#".toList ∧
      r = ⟨⟨[97]⟩, 3, [⟨3, ⟨.libinput, .name, "a".toList⟩⟩],
        [⟨4, ⟨"A".toList, "1 ".toList, some "b".toList⟩⟩]⟩ ∧
      Record.parse ⟨[97]⟩ t = .ok [r] ∧ Record.parse ⟨[97]⟩ t.withReturns = .ok [r] ∧
      Record.parse ⟨[97]⟩ (t ++ ['\n']) = .ok [r] ∧
      Record.parse ⟨[97]⟩ u = .error ⟨2, .missingProperties, 0⟩ ∧
      Record.parse ⟨[97]⟩ u.withReturns = .error ⟨2, .missingProperties, 0⟩ ∧
      Record.parse ⟨[97]⟩ (u ++ ['\n']) = .error ⟨2, .missingProperties, 0⟩ := by
  have hread : Record.parse ⟨[97]⟩ "#\n\nlibinput:name:a\n A=1 #b".toList
      = .ok [⟨⟨[97]⟩, 3, [⟨3, ⟨.libinput, .name, "a".toList⟩⟩],
        [⟨4, ⟨"A".toList, "1 ".toList, some "b".toList⟩⟩]⟩] := by decide +kernel
  have hrefused : Record.parse ⟨[97]⟩ "libinput:name:a\n#".toList
      = .error ⟨2, .missingProperties, 0⟩ := by decide +kernel
  refine ⟨_, _, _, rfl, rfl, rfl, hread, ?_, ?_, hrefused, ?_, ?_⟩
  · exact ((parse_lineEndings _ _).1 (by decide)).trans hread
  · exact ((parse_lineEndings _ _).2 (by decide) (by decide) (by decide)).trans hread
  · exact ((parse_lineEndings _ _).1 (by decide)).trans hrefused
  · exact ((parse_lineEndings _ _).2 (by decide) (by decide) (by decide)).trans hrefused

end Record

end Hwdb
