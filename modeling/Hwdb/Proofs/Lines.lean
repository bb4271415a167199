import Mathlib.Data.List.Basic
import Hwdb.Proofs.Reader
import Hwdb.Text.Lines

/-!
# `Hwdb.Proofs.Lines`: cutting texts where a line begins

A text is `Ended` when its last line has its line feed. What follows such a text begins on
a line of its own, so its lines come after those of the text (`lines_append`).
`firstLines` cuts a text in front of a given line, and `endLine` gives the last line of a
text the line feed that it may want.

`lineInduction` is the induction over the lines of a text that all of this goes by.
-/

set_option autoImplicit false

namespace Hwdb.Text

/-- To prove something of every text, prove it of texts without a line feed, and of a line
with its line feed in front of a text of which it holds. -/
theorem lineInduction {motive : Text → Prop} (last : ∀ l, '\n' ∉ l → motive l)
    (cons : ∀ l t, '\n' ∉ l → motive t → motive (l ++ '\n' :: t)) (t : Text) :
    motive t := by
  -- The induction is on the length: what follows the first line feed is shorter.
  induction hn : t.length using Nat.strongRecOn generalizing t with
  | _ n ih =>
      by_cases h : '\n' ∈ t
      · obtain ⟨l, rest, rfl, hl⟩ := List.eq_append_cons_of_mem h
        refine cons l rest hl (ih rest.length ?_ rest rfl)
        rw [← hn, List.length_append, List.length_cons]
        omega
      · exact last t h

/-! ### Ended texts -/

/-- The text is empty or ends with a line feed. -/
def Ended (t : Text) : Prop :=
  t = [] ∨ t.getLast? = some '\n'

/-- Whether a text is ended is decided behind its first line feed. The first line can
therefore be put in front in an induction. -/
theorem ended_append_lineFeed {l t : Text} : Ended (l ++ '\n' :: t) ↔ Ended t := by
  cases t with
  | nil => simp [Ended]
  | cons c t => simp [Ended, List.getLast?_append]

/-- Of the texts without a line feed only the empty one is ended. It is the first case of an
induction over lines. -/
theorem eq_nil_of_ended {t : Text} (h : Ended t) (ht : '\n' ∉ t) : t = [] :=
  h.resolve_right fun hlast => ht (List.mem_of_getLast? hlast)

/-- What follows an ended text has lines of its own. Without `Ended` the last line of the
first text would go on in the second one. -/
theorem lines_append {s : Text} (hs : Ended s) (t : Text) :
    lines (s ++ t) = lines s ++ lines t := by
  induction s using lineInduction with
  | last l hl =>
      -- Without a line feed an ended text is empty, and there is nothing to append to.
      rw [eq_nil_of_ended hs hl]
      rfl
  | cons l s hl ih =>
      have ih := ih (ended_append_lineFeed.1 hs)
      rw [List.append_assoc, List.cons_append, lines_append_lineFeed _ hl,
        lines_append_lineFeed _ hl, ih, List.cons_append]

/-- Every text is an ended one and what stands after its last line feed, which is its last
line if it is not empty. -/
theorem exists_ended_append (t : Text) : ∃ s l, t = s ++ l ∧ Ended s ∧ '\n' ∉ l := by
  induction t using lineInduction with
  | last l hl => exact ⟨[], l, rfl, Or.inl rfl, hl⟩
  | cons l t _ ih =>
      obtain ⟨s, l', rfl, hs, hl'⟩ := ih
      exact ⟨l ++ '\n' :: s, l', by simp, ended_append_lineFeed.2 hs, hl'⟩

/-- Lines written one after the other, each with a line feed, are the lines of that text up
to carriage returns: one at the end of a line is taken as part of the line ending. -/
theorem lines_flatMap {ls : List Text} (h : ∀ l ∈ ls, '\n' ∉ l) (t : Text) :
    lines (ls.flatMap (· ++ ['\n']) ++ t) = ls.map dropReturn ++ lines t := by
  induction ls with
  | nil => rfl
  | cons l ls ih =>
      have hl := h l List.mem_cons_self
      have ih := ih fun m hm => h m (List.mem_cons_of_mem _ hm)
      rw [List.flatMap_cons, List.append_assoc, List.append_assoc, List.singleton_append,
        lines_append_lineFeed _ hl, ih, List.map_cons, List.cons_append]

/-- Written one after the other, each with a line feed, lines can be told apart again. The
text is cut at its line feeds, and only the empty piece after the last one is in excess. -/
theorem eq_of_flatMap_lineFeed_eq {ls ms : List Text} (hls : ∀ l ∈ ls, '\n' ∉ l)
    (hms : ∀ m ∈ ms, '\n' ∉ m)
    (h : ls.flatMap (· ++ ['\n']) = ms.flatMap (· ++ ['\n'])) : ls = ms := by
  have hpieces : ∀ ks : List Text, (∀ k ∈ ks, '\n' ∉ k) →
      (ks.flatMap (· ++ ['\n'])).splitOn '\n' = ks ++ [[]] := by
    intro ks hks
    induction ks with
    | nil => rfl
    | cons k ks ih =>
        rw [List.flatMap_cons, List.append_assoc, List.singleton_append,
          List.splitOn_append_cons_self_of_not_mem (hks k List.mem_cons_self),
          ih fun m hm => hks m (List.mem_cons_of_mem _ hm), List.cons_append]
  have hcut := congrArg (List.splitOn '\n') h
  rw [hpieces ls hls, hpieces ms hms] at hcut
  exact List.append_cancel_right hcut

/-- No line has a line feed, however the text was cut into lines. So a line can be written
on a line of its own. -/
theorem lineFeed_not_mem_of_mem_lines {t l : Text} (hl : l ∈ lines t) : '\n' ∉ l := by
  -- Dropping a carriage return brings no line feed in.
  have hdrop : ∀ s : Text, '\n' ∉ s → '\n' ∉ dropReturn s := by
    intro s hs
    unfold dropReturn
    split
    · exact fun hmem => hs ((List.dropLast_sublist s).mem hmem)
    · exact hs
  induction t using lineInduction with
  | last s hs =>
      rw [lines_of_not_mem hs] at hl
      split at hl
      · cases hl
      · rwa [List.mem_singleton.1 hl]
  | cons s t hs ih =>
      rw [lines_append_lineFeed t hs, List.mem_cons] at hl
      rcases hl with rfl | hl
      · exact hdrop s hs
      · exact ih hl

/-! ### Carriage returns -/

/-- A text that does not end with a carriage return loses nothing. Most lemmas about lines
that lose nothing come from this one. -/
theorem dropReturn_of_getLast?_ne {t : Text} (h : t.getLast? ≠ some '\r') :
    dropReturn t = t :=
  if_neg h

/-- The texts that lose nothing are those that do not end with a carriage return. It says
which comments are the same when they are read again. -/
theorem dropReturn_eq_self_iff {t : Text} : dropReturn t = t ↔ t.getLast? ≠ some '\r' := by
  refine ⟨fun h hlast => ?_, dropReturn_of_getLast?_ne⟩
  -- Without its last character the text would be shorter.
  obtain ⟨s, rfl⟩ := List.getLast?_eq_some_iff.1 hlast
  rw [dropReturn, if_pos hlast, List.dropLast_concat] at h
  exact absurd (congrArg List.length h) (by simp)

/-- A text without a carriage return loses nothing. That is the case of match keys, tags and
values. -/
theorem dropReturn_of_not_mem {t : Text} (h : '\r' ∉ t) : dropReturn t = t :=
  dropReturn_of_getLast?_ne fun hlast => h (List.mem_of_getLast? hlast)

/-- What stands before another character is no business of the carriage return at the end,
so the written form of a line loses it from its last part only. -/
theorem dropReturn_append_cons {s t : Text} {c : Char} (hc : c ≠ '\r') :
    dropReturn (s ++ c :: t) = s ++ c :: dropReturn t := by
  cases t with
  | nil => rw [dropReturn_of_getLast?_ne (by simpa using hc)]; rfl
  | cons d t =>
      -- The last character is that of what stands after `c`, so both sides ask the same.
      have hlast : (s ++ c :: d :: t).getLast? = (d :: t).getLast? := by
        rw [List.append_cons, List.getLast?_append_of_ne_nil _ (List.cons_ne_nil d t)]
      unfold dropReturn
      rw [hlast]
      split
      · simp
      · rfl

/-! ### The first lines -/

/-- The part of a text before the line that comes after the first `n` ones begins. -/
def firstLines : Nat → Text → Text
  | 0, _ => []
  | n + 1, t =>
      match t.dropWhile (· != '\n') with
      | [] => t
      | c :: rest => t.takeWhile (· != '\n') ++ c :: firstLines n rest

/-- A text without a line feed is one line, so any number of lines but none is the whole
text. It is the first case of an induction over lines. -/
theorem firstLines_succ_of_not_mem {l : Text} (n : Nat) (h : '\n' ∉ l) :
    firstLines (n + 1) l = l := by
  have hdrop : l.dropWhile (· != '\n') = [] := by
    rw [List.dropWhile_eq_nil_iff]
    intro c hc
    exact bne_iff_ne.2 fun heq => h (heq ▸ hc)
  rw [firstLines, hdrop]

/-- The first lines of a text are its first one, with its line feed, and the first ones of
what follows. It is the second case of an induction over lines. -/
theorem firstLines_succ_append {l : Text} (n : Nat) (t : Text) (h : '\n' ∉ l) :
    firstLines (n + 1) (l ++ '\n' :: t) = l ++ '\n' :: firstLines n t := by
  have hl : ∀ c ∈ l, (c != '\n') = true := fun c hc =>
    bne_iff_ne.2 fun heq => h (heq ▸ hc)
  have hstop : Reader.Stops (· != '\n') ('\n' :: t) := by simp
  rw [firstLines, Reader.dropWhile_append_of_stops hl hstop,
    Reader.takeWhile_append_of_stops hl hstop]

/-- The first lines of a text are the lines of the part before the next line. So cutting a
text and taking some of its lines come to the same. -/
theorem lines_firstLines (n : Nat) (t : Text) :
    lines (firstLines n t) = (lines t).take n := by
  induction t using lineInduction generalizing n with
  | last l hl =>
      cases n with
      | zero => rfl
      | succ n =>
          rw [firstLines_succ_of_not_mem n hl, lines_of_not_mem hl]
          split <;> simp
  | cons l t hl ih =>
      cases n with
      | zero => rfl
      | succ n =>
          -- The first line is kept with its line feed, so it is still the first one.
          rw [firstLines_succ_append n t hl, lines_append_lineFeed _ hl, ih,
            lines_append_lineFeed _ hl, List.take_succ_cons]

/-- In front of a line that is there, the text is ended: the line feed before that line
belongs to the first part. -/
theorem ended_firstLines {n : Nat} {t : Text} (h : n < (lines t).length) :
    Ended (firstLines n t) := by
  induction t using lineInduction generalizing n with
  | last l hl =>
      -- There is one line at most, so only the first line can come next.
      have hn : n = 0 := by
        rw [lines_of_not_mem hl] at h
        split at h
        · simp at h
        · simpa using h
      rw [hn]
      exact Or.inl rfl
  | cons l t hl ih =>
      cases n with
      | zero => exact Or.inl rfl
      | succ n =>
          rw [lines_append_lineFeed _ hl, List.length_cons] at h
          rw [firstLines_succ_append n t hl]
          exact ended_append_lineFeed.2 (ih (by omega))

/-! ### The end of the last line -/

/-- The text with a line feed at its end. -/
def endLine (t : Text) : Text :=
  if t.getLast? = some '\n' then t else t ++ ['\n']

/-- With a line feed at its end a text is ended. If it has one already, it gets no second
one. -/
theorem ended_endLine (t : Text) : Ended (endLine t) := by
  unfold endLine
  split
  · next h => exact Or.inr h
  · exact Or.inr (by simp)

/-- A line feed at the end of a text changes its last line at most, and that only by a
carriage return at its end. -/
theorem lines_endLine {t : Text} (ht : t ≠ []) :
    lines (endLine t) = lines t ∨
      ∃ ls l, lines t = ls ++ [l] ∧ lines (endLine t) = ls ++ [dropReturn l] := by
  obtain ⟨s, l, rfl, hs, hl⟩ := exists_ended_append t
  by_cases hnil : l = []
  · -- The text has its line feed already, and nothing is added.
    have hlast : s.getLast? = some '\n' := hs.resolve_left fun hs => ht (by rw [hs, hnil]; rfl)
    rw [hnil, List.append_nil, endLine, if_pos hlast]
    exact Or.inl rfl
  · -- The line feed goes after `l`, which was the last line as it stood.
    have hlast : (s ++ l).getLast? ≠ some '\n' := by
      intro h
      rw [List.getLast?_append_of_ne_nil _ hnil] at h
      exact hl (List.mem_of_getLast? h)
    refine Or.inr ⟨lines s, l, ?_, ?_⟩
    · rw [lines_append hs, lines_of_not_mem hl, if_neg hnil]
    · rw [endLine, if_neg hlast, List.append_assoc, lines_append hs,
        lines_append_lineFeed [] hl, lines_nil]

end Hwdb.Text
