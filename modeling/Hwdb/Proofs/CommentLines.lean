import Hwdb.Proofs.Concatenation

/-!
# `Hwdb.Proofs.CommentLines`: comments with a line of their own

A file that can be read may have one comment line more, at any place between its lines, or
one less. This compares two runs, one of which takes the comment. After it they have the same
assembly, unless the block in hand had no line yet, where the comment makes it a block of
comments (`Assembly.commented`). The next line makes up for that, because a block of
comments takes every line as an empty one does, except for a blank line
(`Assembly.complete_commented`).

From there on both runs take the same lines, with numbers that differ by one. That is a
`Relabelling`. It leaves alone what comes from the lines before the comment
(`Relabelling.assembly_eq_of_feedLines`) and renumbers the records of an accepted rest
(`Relabelling.complete_renumbering`). `Record.parse_commentLine` puts this together.
-/

set_option autoImplicit false

namespace Hwdb

open Layout (AcceptsTexts)

/-! ### An assembly that takes a comment -/

namespace Assembly

/-- The assembly after a comment. Only a block without a line is no longer what it was. -/
def commented (a : Assembly) : Assembly :=
  match a.block with
  | .empty => { a with block := .comments }
  | _ => a

/-- An assembly takes a comment anywhere, and comes to what `commented` says. In no block is
a comment a fault. -/
theorem feed_comment (n : Nat) (a : Assembly) : feed n .comment a = .ok () a.commented := by
  obtain ⟨path, closed, b⟩ := a
  cases b with
  | _ => rfl

/-- After a comment the rest of a file is what it is without, unless it begins with a blank
line that would end an empty block. A block that has a line does not change at all. -/
theorem complete_commented {count : Nat} {ls : List Line} {a : Assembly}
    (h : a.block = .empty → ls.head? ≠ some .blank) :
    complete count ls a.commented = complete count ls a := by
  obtain ⟨path, closed, b⟩ := a
  -- The blocks with lines stay as they are. An empty one and one of comments end in the same
  -- way, and where one of them takes a line, the other takes it with the same result.
  cases b with
  | empty =>
      cases ls with
      | nil => rfl
      | cons l ls =>
          cases l with
          | blank => exact absurd rfl (h rfl)
          | _ => rfl
  | _ => rfl

/-- A blank line may not end an empty block. It is the one fault that a comment can keep
away. -/
theorem complete_blank_of_empty {count : Nat} {ls : List Line} {a : Assembly}
    (ha : a.block = .empty) (hls : ls.head? = some .blank) :
    complete count ls a = .error ⟨count + 1, .unexpectedBlank, a.closed.length⟩ := by
  obtain ⟨ls, rfl⟩ := List.head?_eq_some_iff.1 hls
  obtain ⟨path, closed, b⟩ := a
  subst ha
  rfl

/-- A file may end after an empty block, which gives no record. Comments at the end of a
file give none either. -/
theorem complete_nil_of_empty {count : Nat} {a : Assembly} (ha : a.block = .empty) :
    complete count [] a = .ok a.closed := by
  obtain ⟨path, closed, b⟩ := a
  subst ha
  rfl

/-- At its end a file is accepted if the assembly may be finished, and its records are those
that are closed then. -/
theorem complete_nil_eq_ok_iff {count : Nat} {a : Assembly} {rs : List Record} :
    complete count [] a = .ok rs ↔ ∃ b, finish a = .ok () b ∧ b.closed = rs := by
  rw [complete]
  cases finish a <;> simp

/-- A file is accepted if its next line is taken and the rest is accepted after it. Together
with `complete_nil_eq_ok_iff`, this takes an accepted file apart line by line. -/
theorem complete_cons_eq_ok_iff {count : Nat} {l : Line} {ls : List Line} {a : Assembly}
    {rs : List Record} :
    complete count (l :: ls) a = .ok rs
      ↔ ∃ b, feed (count + 1) l a = .ok () b ∧ complete (count + 1) ls b = .ok rs := by
  rw [complete]
  cases feed (count + 1) l a <;> simp

end Assembly

/-! ### The assembly between two lines -/

/-- A text begins with a blank line if its first line is empty. The first line is all that
decides whether a comment in front of a text matters. -/
theorem Text.head?_kinds_eq_blank_iff {t : Text} :
    (t.lines.map Line.ofText).head? = some .blank ↔ t.lines.head? = some [] := by
  rw [List.head?_map, Option.map_eq_some_iff]
  constructor
  · intro h
    obtain ⟨l, hl, hblank⟩ := h
    rw [hl, Line.ofText_eq_blank_iff.1 hblank]
  · intro h
    exact ⟨[], h, rfl⟩

/-- Only no lines at all are remembered as an empty block. A block of comments is remembered
differently, and this is the difference that a comment line can make. -/
theorem Block.ofLines_eq_empty_iff {b : List (Numbered Line)} :
    Block.ofLines b = .empty ↔ b = [] := by
  constructor
  · intro h
    by_contra hne
    unfold Block.ofLines at h
    split at h
    · rw [if_neg hne] at h
      cases h
    · split at h <;> cases h
  · intro h
    rw [h]
    rfl

/-- If all lines may stand where they stand, the first ones may. A line is judged by the
lines before it. -/
theorem Layout.AcceptsTexts.of_append {ts us : List Text} (h : AcceptsTexts (ts ++ us)) :
    AcceptsTexts ts := by
  rw [AcceptsTexts, Line.ofTexts_append, Layout.accepts_append] at h
  exact h.1

namespace Assembly

/-- The assembly that has taken the given lines of a file. -/
def ofTexts (path : Path) (ts : List Text) : Assembly :=
  ofLayout path (Layout.ofTexts ts)

/-- Its block in hand has no line exactly if there is no line at all or the last one is
blank. There a comment makes a difference. -/
theorem block_ofTexts_eq_empty_iff {path : Path} {ts : List Text} :
    (ofTexts path ts).block = .empty ↔ ts = [] ∨ ts.getLast? = some [] :=
  Block.ofLines_eq_empty_iff.trans Layout.current_ofTexts_eq_nil_iff

/-- A new assembly takes the lines of a file that may stand where they stand, and comes to
the assembly of these lines. -/
theorem feedLines_start {path : Path} {ts : List Text} (h : AcceptsTexts ts) :
    feedLines 0 ts (start path) = .ok () (ofTexts path ts) :=
  feedLines_of_accepts path .nil h

end Assembly

namespace Record

/-- Reading a file can be taken up between two of its lines, if those before may stand where
they stand. What is put between the two then comes to one step more. -/
theorem parse_append {path : Path} {s : Text} (hs : s.Ended) (h : AcceptsTexts s.lines)
    (t : Text) :
    Record.parse path (s ++ t)
      = Assembly.complete s.lines.length (t.lines.map Line.ofText)
          (Assembly.ofTexts path s.lines) := by
  rw [parse_eq_complete, Text.lines_append hs, List.map_append,
    Assembly.complete_append (Assembly.feedLines_start h), Nat.zero_add]

/-- In an accepted file the lines before any place may stand where they stand. With
`parse_append` an accepted file can be cut there. -/
theorem acceptsTexts_of_parse_append {path : Path} {s t : Text} {rs : List Record}
    (hs : s.Ended) (h : Record.parse path (s ++ t) = .ok rs) : AcceptsTexts s.lines := by
  have haccepts := (parse_eq_ok_iff.1 h).1
  rw [Text.lines_append hs] at haccepts
  exact haccepts.of_append

/-- The same place of a file, and a comment there. The comment has taken a number, and it
has changed the block in hand only if that was empty. -/
theorem parse_append_comment {path : Path} {s c : Text} (hs : s.Ended)
    (h : AcceptsTexts s.lines) (hc : '\n' ∉ c) (t : Text) :
    Record.parse path (s ++ ('#' :: c ++ '\n' :: t))
      = Assembly.complete (s.lines.length + 1) (t.lines.map Line.ofText)
          (Assembly.ofTexts path s.lines).commented := by
  have hhash : '\n' ∉ '#' :: c := by simp [hc]
  have hcomment : Line.ofText (Text.dropReturn ('#' :: c)) = .comment :=
    Line.ofText_dropReturn (Or.inl rfl)
  rw [parse_append hs h, Text.lines_append_lineFeed t hhash, List.map_cons, hcomment,
    Assembly.complete, Assembly.feed_comment]

end Record

/-! ### Other numbers -/

/-- The record with other numbers for its lines. -/
def Record.renumbered (f : Nat → Nat) (r : Record) : Record :=
  { path := r.path
    line := f r.line
    keys := r.keys.map fun k => ⟨f k.line, k.item⟩
    properties := r.properties.map fun p => ⟨f p.line, p.item⟩ }

namespace Relabelling

/-- Other numbers and no other labels. -/
def renumbering (f : Nat → Nat) : Relabelling :=
  { number := f }

/-- A comment does not see the labels of an assembly, so relabelling can be done before or
after it. -/
theorem assembly_commented (σ : Relabelling) (a : Assembly) :
    σ.assembly a.commented = (σ.assembly a).commented := by
  obtain ⟨path, closed, b⟩ := a
  cases b with
  | _ => rfl

/-- Other numbers that leave an assembly as it is, and are the old ones for the lines of a run,
leave what comes of the run as it is. -/
theorem assembly_eq_of_feedLines {f : Nat → Nat} {count : Nat} {ts : List Text}
    {a b : Assembly} (hf : ∀ m ≤ count + ts.length, f m = m)
    (ha : (renumbering f).assembly a = a) (h : Assembly.feedLines count ts a = .ok () b) :
    (renumbering f).assembly b = b := by
  -- On the lines: a step commutes with the numbers, and here they change nothing before it.
  induction ts generalizing count a with
  | nil =>
      obtain rfl : a = b := by
        cases h
        rfl
      exact ha
  | cons t ts ih =>
      rw [List.length_cons] at hf
      have hstep := (renumbering f).feed_assembly (count + 1) (Line.ofText t) a
      have hnumber : (renumbering f).number (count + 1) = count + 1 := hf _ (by omega)
      rw [hnumber, line_eq_self _ rfl, ha] at hstep
      rw [Assembly.feedLines_cons] at h
      cases hfeed : Assembly.feed (count + 1) (Line.ofText t) a with
      | error e c =>
          rw [hfeed] at h
          cases h
      | ok _ c =>
          rw [hfeed] at h hstep
          have hc : (renumbering f).assembly c = c := by
            injection hstep with _ hc
            exact hc.symm
          exact ih (fun m hm => hf m (by omega)) hc h

/-- So what a new assembly has of the first lines of a file, and of a comment after them, is
the same under numbers that are the old ones for these lines. -/
theorem commented_ofTexts {f : Nat → Nat} {path : Path} {ts : List Text}
    (h : AcceptsTexts ts) (hf : ∀ m ≤ ts.length, f m = m) :
    (renumbering f).assembly (Assembly.ofTexts path ts).commented
      = (Assembly.ofTexts path ts).commented := by
  rw [assembly_commented]
  exact congrArg Assembly.commented
    (assembly_eq_of_feedLines (by simpa using hf) rfl (Assembly.feedLines_start h))

/-- If the rest of a file is accepted, it is accepted with other numbers. Of these only the
numbers of the lines to come matter: the one of the last line before is not among them, and
the end of the file would report it only if it were at fault. -/
theorem complete_renumbering {f : Nat → Nat} {count count' : Nat} {ls : List Line}
    {a : Assembly} {rs : List Record} (ha : (renumbering f).assembly a = a)
    (hf : ∀ i < ls.length, f (count + 1 + i) = count' + 1 + i)
    (h : Assembly.complete count ls a = .ok rs) :
    Assembly.complete count' ls a = .ok (rs.map (Record.renumbered f)) := by
  -- At the end of the file no number is used. Before it, the next step has the number that
  -- `f` gives it, and what comes after commutes with the labels as a whole.
  cases ls with
  | nil =>
      rw [Assembly.complete_nil_eq_ok_iff] at h ⊢
      obtain ⟨b, hfinish, rfl⟩ := h
      have hend := (renumbering f).finish_assembly a
      rw [ha, hfinish] at hend
      exact ⟨(renumbering f).assembly b, hfinish.trans hend, rfl⟩
  | cons l ls =>
      rw [Assembly.complete_cons_eq_ok_iff] at h ⊢
      obtain ⟨b, hfeed, hrest⟩ := h
      have hstep := (renumbering f).feed_assembly (count + 1) l a
      have hnumber : (renumbering f).number (count + 1) = count' + 1 := hf 0 (by simp)
      rw [hnumber, line_eq_self _ rfl, ha, hfeed] at hstep
      have hnumbers : ∀ i ≤ ls.length,
          (renumbering f).number (count + 1 + i) = count' + 1 + i := by
        intro i hi
        exact hf i (by rw [List.length_cons]; omega)
      have hcomplete := (renumbering f).complete_assembly hnumbers b
      rw [map_line_eq_self _ rfl, hrest] at hcomplete
      exact ⟨(renumbering f).assembly b, hstep, hcomplete⟩

end Relabelling

namespace Record

/-- The number of a line after another one has come to stand after the first `n` lines. -/
def numberAfterInsertion (n m : Nat) : Nat :=
  if m ≤ n then m else m + 1

/-- The number of a line after the one that stood after the first `n` lines has gone. -/
def numberAfterRemoval (n m : Nat) : Nat :=
  if m ≤ n then m else m - 1

/-- A comment line more in an accepted file: it is accepted, and the numbers of later lines
go up by one. -/
theorem parse_insert_comment {path : Path} {s c t : Text} {rs : List Record} (hs : s.Ended)
    (hc : '\n' ∉ c) (h : Record.parse path (s ++ t) = .ok rs) :
    Record.parse path (s ++ ('#' :: c ++ '\n' :: t))
      = .ok (rs.map (renumbered (numberAfterInsertion s.lines.length))) := by
  have haccepts := acceptsTexts_of_parse_append hs h
  rw [parse_append hs haccepts] at h
  rw [parse_append_comment hs haccepts hc]
  -- As the file is accepted without the comment, no blank line ends an empty block there.
  have hblank : (Assembly.ofTexts path s.lines).block = .empty →
      (t.lines.map Line.ofText).head? ≠ some .blank := by
    intro hempty hhead
    rw [Assembly.complete_blank_of_empty hempty hhead] at h
    cases h
  rw [← Assembly.complete_commented hblank] at h
  apply Relabelling.complete_renumbering _ _ h
  · apply Relabelling.commented_ofTexts haccepts
    intro m hm
    exact if_pos hm
  · intro i _
    rw [numberAfterInsertion, if_neg (by omega)]
    omega

/-- A comment line less, unless it was all of a block that a blank line ends. The blank line
after such a comment would end nothing. In all other places the numbers of later lines go
down by one. -/
theorem parse_remove_comment {path : Path} {s c t : Text} {rs : List Record} (hs : s.Ended)
    (hc : '\n' ∉ c) (h : Record.parse path (s ++ ('#' :: c ++ '\n' :: t)) = .ok rs)
    (hblank : s = [] ∨ s.lines.getLast? = some [] → t.lines.head? ≠ some []) :
    Record.parse path (s ++ t)
      = .ok (rs.map (renumbered (numberAfterRemoval s.lines.length))) := by
  have haccepts := acceptsTexts_of_parse_append hs h
  rw [parse_append_comment hs haccepts hc] at h
  -- The two files differ by the comment in front of the rest, and by its number.
  rw [parse_append hs haccepts, ← Assembly.complete_commented]
  · apply Relabelling.complete_renumbering _ _ h
    · apply Relabelling.commented_ofTexts haccepts
      intro m hm
      exact if_pos hm
    · intro i _
      rw [numberAfterRemoval, if_neg (by omega)]
      omega
  · intro hempty
    rw [Assembly.block_ofTexts_eq_empty_iff, Text.lines_eq_nil_iff] at hempty
    rw [Ne, Text.head?_kinds_eq_blank_iff]
    exact hblank hempty

/-- Without a comment that was all of its block, the blank line after it is unexpected. It
stands on the line that was the comment's, and the records of the lines before it are
complete. -/
theorem parse_remove_only_comment {path : Path} {s c t : Text} {rs : List Record} (hs : s.Ended)
    (h : Record.parse path (s ++ ('#' :: c ++ '\n' :: t)) = .ok rs)
    (hbefore : s = [] ∨ s.lines.getLast? = some []) (hafter : t.lines.head? = some []) :
    ∃ qs, Record.parse path s = .ok qs ∧
      Record.parse path (s ++ t) = .error ⟨s.lines.length + 1, .unexpectedBlank, qs.length⟩ := by
  have haccepts := acceptsTexts_of_parse_append hs h
  have hempty : (Assembly.ofTexts path s.lines).block = .empty := by
    rwa [Assembly.block_ofTexts_eq_empty_iff, Text.lines_eq_nil_iff]
  use (Assembly.ofTexts path s.lines).closed
  constructor
  · have hend : Record.parse path (s ++ []) = .ok (Assembly.ofTexts path s.lines).closed :=
      (parse_append hs haccepts []).trans (Assembly.complete_nil_of_empty hempty)
    rwa [List.append_nil] at hend
  · rw [parse_append hs haccepts]
    exact Assembly.complete_blank_of_empty hempty (Text.head?_kinds_eq_blank_iff.2 hafter)

/-- Comment lines say nothing. An ended text `s` is what may stand before a line of a file, or
before its end. If the file is accepted, so it is with a comment line after `s`, and the
records are the same except that the numbers of later lines go up by one.

The other way round, a comment line may be taken out of an accepted file, and the numbers of
later lines go down by one. Only if the comment is the one line of a block that a blank line
ends, that blank line is unexpected then. It has taken the number of the comment, and the
records before it are complete. -/
theorem parse_commentLine {s c : Text} (hs : s.Ended) (hc : '\n' ∉ c) (path : Path) (t : Text) :
    (∀ rs, Record.parse path (s ++ t) = .ok rs →
      Record.parse path (s ++ ('#' :: c ++ '\n' :: t))
        = .ok (rs.map (renumbered (numberAfterInsertion s.lines.length)))) ∧
    ∀ rs, Record.parse path (s ++ ('#' :: c ++ '\n' :: t)) = .ok rs →
      if (s = [] ∨ s.lines.getLast? = some []) ∧ t.lines.head? = some [] then
        ∃ qs, Record.parse path s = .ok qs ∧
          Record.parse path (s ++ t)
            = .error ⟨s.lines.length + 1, .unexpectedBlank, qs.length⟩
      else
        Record.parse path (s ++ t)
          = .ok (rs.map (renumbered (numberAfterRemoval s.lines.length))) := by
  constructor
  · intro rs h
    exact parse_insert_comment hs hc h
  · intro rs h
    split
    · next hblank => exact parse_remove_only_comment hs h hblank.1 hblank.2
    · next hblank =>
        apply parse_remove_comment hs hc h
        intro hbefore hafter
        exact hblank ⟨hbefore, hafter⟩

/-- A comment between the match key and the property of a record, which is taken out again,
one at the end of a file, and one that keeps two blank lines apart. -/
theorem parse_commentLine_places :
    ∃ (s t u v c : Text) (r : Record), s = "libinput:name:a\n".toList ∧ t = " A=1\n".toList ∧
      u = "libinput:name:a\n A=1\n\n".toList ∧ v = "\nlibinput:name:a\n A=1\n".toList ∧
      c = "c".toList ∧
      r = ⟨⟨[97]⟩, 1, [⟨1, ⟨.libinput, .name, "a".toList⟩⟩],
        [⟨2, ⟨"A".toList, "1".toList, none⟩⟩]⟩ ∧
      Record.parse ⟨[97]⟩ (s ++ t) = .ok [r] ∧
      Record.parse ⟨[97]⟩ (s ++ ('#' :: c ++ '\n' :: t))
        = .ok [r.renumbered (numberAfterInsertion 1)] ∧
      Record.parse ⟨[97]⟩ (s ++ t)
        = .ok [(r.renumbered (numberAfterInsertion 1)).renumbered (numberAfterRemoval 1)] ∧
      Record.parse ⟨[97]⟩ u = .ok [r] ∧
      Record.parse ⟨[97]⟩ (u ++ ('#' :: c ++ '\n' :: [])) = .ok [r] ∧
      Record.parse ⟨[97]⟩ (u ++ ('#' :: c ++ '\n' :: v)) = .ok [r, r.renumbered (· + 5)] ∧
      Record.parse ⟨[97]⟩ (u ++ v) = .error ⟨4, .unexpectedBlank, 1⟩ := by
  have hs : Text.Ended "libinput:name:a\n".toList := Or.inr rfl
  have hs' : Text.Ended "libinput:name:a\n A=1\n\n".toList := Or.inr rfl
  have hc : '\n' ∉ "c".toList := by decide
  have hread : Record.parse ⟨[97]⟩ ("libinput:name:a\n".toList ++ " A=1\n".toList)
      = .ok [⟨⟨[97]⟩, 1, [⟨1, ⟨.libinput, .name, "a".toList⟩⟩],
        [⟨2, ⟨"A".toList, "1".toList, none⟩⟩]⟩] := by decide +kernel
  have hinsert := (parse_commentLine hs hc _ _).1 _ hread
  have hremove := (parse_commentLine hs hc _ _).2 _ hinsert
  have hfile : Record.parse ⟨[97]⟩ "libinput:name:a\n A=1\n\n".toList
      = .ok [⟨⟨[97]⟩, 1, [⟨1, ⟨.libinput, .name, "a".toList⟩⟩],
        [⟨2, ⟨"A".toList, "1".toList, none⟩⟩]⟩] := by decide +kernel
  -- The same at the end of a file, where no line is left to get another number.
  have hend := (parse_commentLine hs' hc ⟨[97]⟩ []).1 _ (by rw [List.append_nil]; exact hfile)
  have hapart : Record.parse ⟨[97]⟩ ("libinput:name:a\n A=1\n\n".toList
        ++ ('#' :: "c".toList ++ '\n' :: "\nlibinput:name:a\n A=1\n".toList))
      = .ok [⟨⟨[97]⟩, 1, [⟨1, ⟨.libinput, .name, "a".toList⟩⟩],
          [⟨2, ⟨"A".toList, "1".toList, none⟩⟩]⟩,
        ⟨⟨[97]⟩, 6, [⟨6, ⟨.libinput, .name, "a".toList⟩⟩],
          [⟨7, ⟨"A".toList, "1".toList, none⟩⟩]⟩] := by decide +kernel
  have htogether := (parse_commentLine hs' hc _ _).2 _ hapart
  -- The comment in the record is not all of its block. The one between two blank lines is.
  rw [if_neg (by decide +kernel)] at hremove
  rw [if_pos (by decide +kernel)] at htogether
  obtain ⟨qs, hqs, herror⟩ := htogether
  obtain rfl := Except.ok.inj (hfile.symm.trans hqs)
  refine ⟨_, _, _, _, _, _, rfl, rfl, rfl, rfl, rfl, rfl, hread, ?_, ?_, hfile, ?_, hapart, ?_⟩
  · refine hinsert.trans ?_
    decide +kernel
  · refine hremove.trans ?_
    decide +kernel
  · refine hend.trans ?_
    decide +kernel
  · refine herror.trans ?_
    decide +kernel

end Record

end Hwdb
