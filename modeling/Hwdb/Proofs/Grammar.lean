import Mathlib.Computability.Language
import Hwdb.Line
import Hwdb.Text.Lines

/-!
# `Hwdb.Proofs.Grammar`: the language of files

The kinds of the lines of a file form a word, and `Grammar.file` is the language of the
words of files that can be read: blocks with one blank line between two of them and perhaps
one after the last. A block is `Grammar.comments`, or `Grammar.header` followed by
`Grammar.body`.

Each part of a block gets an equivalence that says which lines it has (`mem_header_iff` and
its like). `looseFile_eq` is a second description of the same language, which leaves open
where the comments between match keys and properties belong.
-/

set_option autoImplicit false

namespace Hwdb

open scoped Computability

/-- The kind of a line, without what it holds. -/
inductive Line.Kind
  | blank
  | comment
  | indentedComment
  | key
  | property
  | malformedProperty
  | unknown
  deriving DecidableEq, Repr

/-- The kind of a line. -/
def Line.kind : Line → Line.Kind
  | blank => .blank
  | comment => .comment
  | indentedComment => .indentedComment
  | key _ => .key
  | property _ => .property
  | malformedProperty _ => .malformedProperty
  | unknown _ => .unknown

/-- The kinds of the lines of a text. -/
def Text.kinds (t : Text) : List Line.Kind :=
  t.lines.map fun l => (Line.ofText l).kind

namespace Grammar

open Line (Kind)

/-- One line of a kind. -/
def one (k : Kind) : Language Kind :=
  {[k]}

/-- A block of comments. -/
def comments : Language Kind :=
  one .comment * (one .comment)∗

/-- The match keys of a record, with comments before and between them. -/
def header : Language Kind :=
  (one .comment)∗ * one .key * (one .comment + one .key)∗

/-- The lines after the match keys of a record, of which a property or an indented comment
is the first. -/
def bodyRun : Language Kind :=
  (one .indentedComment + one .property)
    * (one .comment + one .indentedComment + one .property)∗

/-- The properties of a record with their comments. -/
def body : Language Kind :=
  {w | w ∈ bodyRun ∧ .property ∈ w}

/-- A block. -/
def block : Language Kind :=
  comments + header * body

/-- A file: each block but the last one needs a blank line after it. -/
def file : Language Kind :=
  (block * one .blank)∗ * (1 + block)

/-- A file is empty, or one block, or a block with a blank line and a file after it. The
proofs go through a file from its first block on, which the star in `file` does not show. -/
theorem file_eq : file = 1 + block + block * one .blank * file := by
  have hstar := Language.one_add_self_mul_kstar_eq_kstar (block * one .blank)
  calc file
      = (1 + block * one .blank * (block * one .blank)∗) * (1 + block) := by
        rw [hstar, file]
    _ = 1 + block + block * one .blank * file := by
        rw [add_mul, one_mul, mul_assoc, file]

/-! ### Runs of lines -/

/-- The language of one line has that one word. The other languages here are put together of
such ones. -/
theorem mem_one {k : Kind} {w : List Kind} : w ∈ one k ↔ w = [k] := Iff.rfl

/-- A word of one line is in the language of a kind if it is of that kind. It is the form in
which a line of a repetition is looked at. -/
theorem cons_nil_mem_one {k k' : Kind} : [k] ∈ one k' ↔ k = k' := by
  rw [mem_one, List.cons.injEq, and_iff_left rfl]

/-- Repeating single lines gives the words whose lines are all among them. The hypothesis
says that the repeated language has words of one line only, so a word can be cut in one
way. -/
theorem mem_kstar_iff {l : Language Kind} (hl : ∀ w ∈ l, ∃ k, w = [k]) {w : List Kind} :
    w ∈ l∗ ↔ ∀ k ∈ w, [k] ∈ l := by
  rw [Language.mem_kstar]
  refine ⟨fun h k hk => ?_, fun h => ?_⟩
  · obtain ⟨pieces, rfl, hpieces⟩ := h
    obtain ⟨piece, hpiece, hkpiece⟩ := List.mem_flatten.1 hk
    obtain ⟨k', rfl⟩ := hl piece (hpieces piece hpiece)
    rw [List.mem_singleton.1 hkpiece]
    exact hpieces _ hpiece
  · -- The pieces of `w` are its single lines.
    refine ⟨w.map fun k => [k], ?_, fun piece hpiece => ?_⟩
    · induction w with
      | nil => rfl
      | cons k w ih =>
          rw [List.map_cons, List.flatten_cons,
            ← ih fun k' hk' => h k' (List.mem_cons_of_mem _ hk')]
          rfl
    · obtain ⟨k, hk, rfl⟩ := List.mem_map.1 hpiece
      exact h k hk

/-- Repeating lines of one kind. All lines are of that kind, and there may be none. -/
theorem mem_one_kstar_iff {k₁ : Kind} {w : List Kind} :
    w ∈ (one k₁)∗ ↔ ∀ k ∈ w, k = k₁ := by
  -- The words of `one k₁` are single lines, as `mem_kstar_iff` asks.
  have hone : ∀ w ∈ one k₁, ∃ k, w = [k] := fun w hw => ⟨k₁, hw⟩
  rw [mem_kstar_iff hone]
  simp only [cons_nil_mem_one]

/-- Repeating lines of two kinds, in any order. It is what a header goes on with after its
first match key. -/
theorem mem_two_kstar_iff {k₁ k₂ : Kind} {w : List Kind} :
    w ∈ (one k₁ + one k₂)∗ ↔ ∀ k ∈ w, k = k₁ ∨ k = k₂ := by
  rw [mem_kstar_iff fun w hw => ?_]
  · simp only [Language.mem_add, cons_nil_mem_one]
  · rcases (Language.mem_add _ _ _).1 hw with h | h
    · exact ⟨k₁, h⟩
    · exact ⟨k₂, h⟩

/-- Repeating lines of three kinds, in any order. It is what a body goes on with after its
first line. -/
theorem mem_three_kstar_iff {k₁ k₂ k₃ : Kind} {w : List Kind} :
    w ∈ (one k₁ + one k₂ + one k₃)∗ ↔ ∀ k ∈ w, k = k₁ ∨ k = k₂ ∨ k = k₃ := by
  rw [mem_kstar_iff fun w hw => ?_]
  · simp only [Language.mem_add, cons_nil_mem_one, or_assoc]
  · rcases (Language.mem_add _ _ _).1 hw with h | h
    · rcases (Language.mem_add _ _ _).1 h with h | h
      · exact ⟨k₁, h⟩
      · exact ⟨k₂, h⟩
    · exact ⟨k₃, h⟩

/-- A block of comments has at least one line, and all of its lines are comments. No block
is empty, which would be two blank lines in a row. -/
theorem mem_comments_iff {w : List Kind} :
    w ∈ comments ↔ w ≠ [] ∧ ∀ k ∈ w, k = .comment := by
  unfold comments
  rw [Language.mem_mul]
  refine ⟨fun h => ?_, fun h => ?_⟩
  · obtain ⟨u, hu, v, hv, rfl⟩ := h
    rw [mem_one] at hu
    rw [mem_one_kstar_iff] at hv
    subst hu
    exact ⟨by simp, by simpa using hv⟩
  · -- The first comment is the one that has to be there.
    cases w with
    | nil => exact absurd rfl h.1
    | cons k w =>
        have hk := h.2 k List.mem_cons_self
        refine ⟨[k], cons_nil_mem_one.2 hk, w, mem_one_kstar_iff.2 fun k' hk' => ?_, rfl⟩
        exact h.2 k' (List.mem_cons_of_mem _ hk')

/-- A header is any run of comments and match keys that has a match key. Where the first
match key stands is not said any more, as it can stand anywhere. -/
theorem mem_header_iff {w : List Kind} :
    w ∈ header ↔ (∀ k ∈ w, k = .comment ∨ k = .key) ∧ .key ∈ w := by
  unfold header
  rw [Language.mem_mul]
  refine ⟨fun h => ?_, fun h => ?_⟩
  · obtain ⟨uv, huv, x, hx, rfl⟩ := h
    obtain ⟨u, hu, v, hv, rfl⟩ := Language.mem_mul.1 huv
    rw [mem_one_kstar_iff] at hu
    rw [mem_one] at hv
    rw [mem_two_kstar_iff] at hx
    subst hv
    refine ⟨fun k hk => ?_, by simp⟩
    simp only [List.mem_append, List.mem_singleton] at hk
    rcases hk with (hk | hk) | hk
    · exact Or.inl (hu k hk)
    · exact Or.inr hk
    · exact hx k hk
  · -- The first match key ends the comments in front.
    obtain ⟨u, v, rfl, hu⟩ := List.eq_append_cons_of_mem h.2
    refine ⟨u ++ [.key], Language.append_mem_mul (mem_one_kstar_iff.2 fun k hk => ?_)
      (cons_nil_mem_one.2 rfl), v, mem_two_kstar_iff.2 fun k hk => ?_, by simp⟩
    · rcases h.1 k (by simp [hk]) with hcomment | hkey
      · exact hcomment
      · exact absurd (hkey ▸ hk) hu
    · exact h.1 k (by simp [hk])

/-- What follows a header begins with a property or an indented comment and has no match key
in it. A comment cannot be the first line: it would still belong to the header. -/
theorem mem_bodyRun_iff {w : List Kind} :
    w ∈ bodyRun ↔ ∃ k w', w = k :: w' ∧ (k = .indentedComment ∨ k = .property) ∧
      ∀ k' ∈ w', k' = .comment ∨ k' = .indentedComment ∨ k' = .property := by
  unfold bodyRun
  rw [Language.mem_mul]
  refine ⟨fun h => ?_, fun h => ?_⟩
  · obtain ⟨u, hu, v, hv, rfl⟩ := h
    rw [mem_three_kstar_iff] at hv
    -- The first line is of one of two kinds.
    rcases (Language.mem_add _ _ _).1 hu with hu | hu
    · exact ⟨_, v, by rw [mem_one.1 hu]; rfl, Or.inl rfl, hv⟩
    · exact ⟨_, v, by rw [mem_one.1 hu]; rfl, Or.inr rfl, hv⟩
  · obtain ⟨k, w', rfl, hk, hw'⟩ := h
    refine ⟨[k], (Language.mem_add _ _ _).2 ?_, w', mem_three_kstar_iff.2 hw', rfl⟩
    rcases hk with rfl | rfl
    · exact Or.inl rfl
    · exact Or.inr rfl

/-! ### One more line -/

/-- The first match key after some comments, or after nothing, makes a header of them. In a
block of comments it is the first line of a record. -/
theorem concat_mem_header_of_comments {w : List Kind} (h : ∀ k ∈ w, k = .comment) :
    w ++ [.key] ∈ header := by
  rw [mem_header_iff]
  refine ⟨fun k hk => ?_, by simp⟩
  rw [List.mem_append, List.mem_singleton] at hk
  exact hk.imp (h k) id

/-- A header goes on with comments and match keys. It has its match key already, and need
not be asked for another one. -/
theorem concat_mem_header {w : List Kind} {k : Kind} (h : w ∈ header)
    (hk : k = .comment ∨ k = .key) : w ++ [k] ∈ header := by
  rw [mem_header_iff] at h ⊢
  refine ⟨fun k' hk' => ?_, List.mem_append_left _ h.2⟩
  rw [List.mem_append, List.mem_singleton] at hk'
  exact hk'.elim (h.1 k') fun heq => heq ▸ hk

/-- The first line that can only stand after the match keys begins the properties. Whether
there is a property among them is a question for the end of the block. -/
theorem singleton_mem_bodyRun {k : Kind} (hk : k = .indentedComment ∨ k = .property) :
    [k] ∈ bodyRun :=
  mem_bodyRun_iff.2 ⟨k, [], rfl, hk, by simp⟩

/-- The properties go on with any line but a match key and a blank one. A comment may come
here without a space in front, too. -/
theorem concat_mem_bodyRun {w : List Kind} {k : Kind} (h : w ∈ bodyRun)
    (hk : k = .comment ∨ k = .indentedComment ∨ k = .property) : w ++ [k] ∈ bodyRun := by
  obtain ⟨first, w', rfl, hfirst, hw'⟩ := mem_bodyRun_iff.1 h
  refine mem_bodyRun_iff.2 ⟨first, w' ++ [k], rfl, hfirst, fun k' hk' => ?_⟩
  rw [List.mem_append, List.mem_singleton] at hk'
  exact hk'.elim (hw' k') fun heq => heq ▸ hk

/-! ### The grammar once more -/

/-- Comments and match keys in any order. -/
def keyRun : Language Kind :=
  {w | (∀ k ∈ w, k = .comment ∨ k = .key) ∧ .key ∈ w}

/-- Comments and properties in any order. -/
def propertyRun : Language Kind :=
  {w | (∀ k ∈ w, k = .comment ∨ k = .indentedComment ∨ k = .property) ∧ .property ∈ w}

/-- A block, in which the comments between the match keys and the properties may go with
either. -/
def looseBlock : Language Kind :=
  comments + keyRun * propertyRun

/-- A file of such blocks. -/
def looseFile : Language Kind :=
  (looseBlock * one .blank)∗ * (1 + looseBlock)

/-- What stands after the first lines of a kind is another line, if there is one of another
kind at all. It finds the place where the comments in front of the properties end. -/
theorem exists_append_of_mem {k : Kind} {v : List Kind} (hv : ∃ k' ∈ v, k' ≠ k) :
    ∃ u k' w, v = u ++ k' :: w ∧ (∀ j ∈ u, j = k) ∧ k' ≠ k := by
  induction v with
  | nil =>
      obtain ⟨k', hk', -⟩ := hv
      cases hk'
  | cons j v ih =>
      by_cases hj : j = k
      · -- The first line is of the kind, so the other one comes later.
        have hv' : ∃ k' ∈ v, k' ≠ k := by
          obtain ⟨k', hk', hne⟩ := hv
          rcases List.mem_cons.1 hk' with rfl | hk'
          · exact absurd hj hne
          · exact ⟨k', hk', hne⟩
        obtain ⟨u, k', w, rfl, hu, hne⟩ := ih hv'
        refine ⟨j :: u, k', w, rfl, ?_, hne⟩
        exact List.forall_mem_cons.2 ⟨hj, hu⟩
      · exact ⟨[], j, v, rfl, by simp, hj⟩

/-- The comments after the match keys go with the match keys: that is one way to read a
record, and there is no need for another. -/
theorem header_mul_body : header * body = keyRun * propertyRun := by
  ext w
  rw [Language.mem_mul, Language.mem_mul]
  constructor
  · intro ⟨u, hu, v, ⟨hrun, hproperty⟩, huv⟩
    -- A header is a run with a match key, and a body is a run with a property.
    refine ⟨u, mem_header_iff.1 hu, v, ⟨fun k hk => ?_, hproperty⟩, huv⟩
    obtain ⟨first, rest, rfl, hfirst, hrest⟩ := mem_bodyRun_iff.1 hrun
    rcases List.mem_cons.1 hk with rfl | hk
    · exact Or.inr hfirst
    · exact hrest k hk
  · intro ⟨u, ⟨hu, hkey⟩, v, ⟨hv, hproperty⟩, huv⟩
    -- The comments `c` at the front of `v` go over to the match keys.
    have hother : ∃ k ∈ v, k ≠ .comment := ⟨.property, hproperty, by decide⟩
    obtain ⟨c, first, rest, rfl, hc, hfirst⟩ := exists_append_of_mem hother
    have hin : ∀ k ∈ first :: rest, k ∈ c ++ first :: rest := fun k hk =>
      List.mem_append_right _ hk
    refine ⟨u ++ c, mem_header_iff.2 ⟨fun k hk => ?_, List.mem_append_left _ hkey⟩,
      first :: rest, ⟨mem_bodyRun_iff.2 ⟨first, rest, rfl, ?_, fun k hk => ?_⟩, ?_⟩, ?_⟩
    · exact (List.mem_append.1 hk).elim (hu k) fun hk => Or.inl (hc k hk)
    · exact (hv first (hin first List.mem_cons_self)).resolve_left hfirst
    · exact hv k (hin k (List.mem_cons_of_mem _ hk))
    · refine (List.mem_append.1 hproperty).resolve_left fun hmem => ?_
      cases hc _ hmem
    · rw [List.append_assoc, huv]

/-- Both descriptions have the same files. The loose one is easier to hold against a text of
the format, which does not say where such comments belong. -/
theorem looseFile_eq : looseFile = file := by
  rw [looseFile, looseBlock, ← header_mul_body]
  rfl

end Grammar

end Hwdb
